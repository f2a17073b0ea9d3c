import Circom.ConstraintGeneration.BusRepresentation
import Circom.ConstraintGeneration.Proofs.SignalAssignments
import Circom.Lib.Updates
import Mathlib.Data.List.Intervals

/-!
# The counters of a bus

The counter of a field is exact if it is the number of its cells, or of its buses, that are still to be assigned.
An assignment subtracts the size of the assigned value whatever the cells are, so that a counter stays exact only
if nothing of what is assigned was assigned before, or if there is nothing left at all. A whole bus is assigned
without counting.
-/

namespace Circom.ConstraintGeneration.EnvironmentUtils

open Circom.Lib (HashMap Updates)
open Circom.ProgramStructure (MemorySlice)

variable {α β : Type}
variable {conditionsAssignment : AssignmentState} {hasAssignment : Bool} {bus : BusRepresentation}
variable {unassigned : HashMap String ℕ} {fields : List Field}

/-! ## Computations without underflow -/

/-- The computation does not subtract too much from a counter, and ends with `Q` if it does not fail. -/
def Safe (x : Except Stop α) (Q : α → Prop) : Prop :=
  match x with
  | .ok a => Q a
  | .error stop => stop ≠ .underflow

theorem Safe.bind {x : Except Stop α} {f : α → Except Stop β} {P : α → Prop} {Q : β → Prop} (hx : Safe x P)
    (hf : ∀ a, P a → Safe (f a) Q) : Safe (x >>= f) Q := by
  cases x with
  | error stop => exact hx
  | ok a => exact hf a hx

theorem Safe.imp {x : Except Stop α} {P Q : α → Prop} (hx : Safe x P) (h : ∀ a, P a → Q a) : Safe x Q := by
  cases x with
  | error stop => exact hx
  | ok a => exact h a hx

theorem safe_orPanic (o : Option α) : Safe (orPanic o) fun a => o = some a := by
  cases o with
  | none => exact Stop.noConfusion
  | some a => rfl

theorem safe_orError (x : Except AssignmentError α) : Safe (orError x) fun a => x = .ok a := by
  cases x with
  | error e => exact Stop.noConfusion
  | ok a => rfl

theorem Safe.mapM {f : α → Except Stop β} {P : α → β → Prop} {as : List α} (h : ∀ a ∈ as, Safe (f a) (P a)) :
    Safe (as.mapM f) fun bs => List.Forall₂ P as bs := by
  induction as with
  | nil => exact .nil
  | cons a as ih =>
    rw [List.mapM_cons]
    exact (h a List.mem_cons_self).bind fun b hb =>
      (ih fun a ha => h a (List.mem_cons_of_mem _ ha)).bind fun bs hbs => .cons hb hbs

/-! ## Counters -/

/-- No counter is kept at zero. -/
def Positive (unassigned : HashMap String ℕ) : Prop := ∀ name, unassigned.lookup name ≠ some 0

variable {unassigned : HashMap String ℕ} {name : String}

theorem unassignedOf_congr {unassigned' : HashMap String ℕ} (h : unassigned'.lookup name = unassigned.lookup name) :
    unassignedOf unassigned' name = unassignedOf unassigned name := by
  unfold unassignedOf
  rw [h]

/-- A counter from which not too much is subtracted goes down, and a missing one stays missing. -/
theorem subtractUnassigned_safe {amount left : ℕ} (hpositive : Positive unassigned)
    (h : unassignedOf unassigned name = left + amount ∨ unassignedOf unassigned name = 0 ∧ left = 0) :
    Safe (subtractUnassigned unassigned name amount) fun unassigned' =>
      Positive unassigned' ∧ unassignedOf unassigned' name = left ∧
        ∀ other, other ≠ name → unassigned'.lookup other = unassigned.lookup other := by
  unfold subtractUnassigned
  cases hlookup : unassigned.lookup name with
  | none =>
    have hzero : unassignedOf unassigned name = 0 := by
      unfold unassignedOf
      rw [hlookup]
      rfl
    exact ⟨hpositive, by omega, fun _ _ => rfl⟩
  | some n =>
    have hn : unassignedOf unassigned name = n := by
      unfold unassignedOf
      rw [hlookup]
      rfl
    have hpos : n ≠ 0 := fun heq => hpositive name (heq ▸ hlookup)
    have hsum : n = left + amount := by omega
    show Safe (if n < amount then _ else _) _
    rw [if_neg (by omega : ¬ n < amount)]
    by_cases hzero : n - amount = 0
    · rw [if_pos hzero]
      refine ⟨fun other hother => ?_, ?_, fun other hne => AList.lookup_erase_ne hne⟩
      · by_cases hne : other = name
        · rw [hne, AList.lookup_erase] at hother
          cases hother
        · rw [AList.lookup_erase_ne hne] at hother
          exact hpositive other hother
      · unfold unassignedOf
        rw [AList.lookup_erase]
        show 0 = left
        omega
    · rw [if_neg hzero]
      refine ⟨fun other hother => ?_, ?_, fun other hne => AList.lookup_insert_ne hne⟩
      · by_cases hne : other = name
        · rw [hne, AList.lookup_insert] at hother
          exact hzero (Option.some.inj hother)
        · rw [AList.lookup_insert_ne hne] at hother
          exact hpositive other hother
      · unfold unassignedOf
        rw [AList.lookup_insert]
        show n - amount = left
        omega

/-! ## Slices -/

/-- The value has the shape of what is accessed, of which nothing is assigned; or nothing is left at all. -/
def CoversUnassigned (p : α → Bool) (slice : MemorySlice α) (access newRoute : List ℕ) : Prop :=
  newRoute = slice.route.drop access.length ∧
      (∀ cells, slice.accessValuesByMutReference access = .ok cells →
        ∀ cell ∈ cells, ∀ a, slice.values[cell]? = some a → p a = true) ∨
    slice.values.countP p = 0

theorem length_filter_range {first size n : ℕ} (h : first + size ≤ n) :
    ((List.range n).filter fun index => first ≤ index ∧ index < first + size).length = size := by
  have hfilter : (List.range n).filter (fun index => first ≤ index ∧ index < first + size) =
      ((List.range n).filter fun index => index < first + size).filter fun index => first ≤ index := by
    rw [List.filter_filter]
    exact List.filter_congr fun index _ => Bool.decide_and _ _
  rw [hfilter, ← List.Ico.zero_bot, List.Ico.filter_lt, List.Ico.filter_le, List.Ico.length]
  omega

/-- There are as many references as cells below the access. -/
theorem length_references {slice : MemorySlice α} (hwf : slice.WellFormed) {access cells : List ℕ}
    (h : slice.accessValuesByMutReference access = .ok cells) :
    cells.length = (slice.route.drop access.length).prod := by
  obtain ⟨⟨hlen, hwithin⟩, rfl⟩ := MemorySlice.accessValuesByMutReference_eq hwf h
  have hlt := Lib.cellPosition_lt hwithin
  have htotal : slice.values.length =
      (slice.route.take access.length).prod * (slice.route.drop access.length).prod := by
    rw [hwf, ← List.prod_append, List.take_append_drop]
  have hfits : MemorySlice.firstBelow slice.route access + (slice.route.drop access.length).prod ≤
      slice.values.length := by
    rw [htotal, MemorySlice.firstBelow, ← Nat.succ_mul]
    exact Nat.mul_le_mul_right _ hlt
  exact length_filter_range hfits

variable {p : α → Bool} {R : α → α → Prop} {slice : MemorySlice α} {access newRoute cells : List ℕ} {values : List α}

/-- The number of elements that are left goes down by the size of the value, or is zero. -/
theorem countP_of_covers (hwf : slice.WellFormed) (hcells : slice.accessValuesByMutReference access = .ok cells)
    (hR : ∀ a b, R a b → p b = false) (hupdates : Updates R slice.values cells values)
    (hcovers : CoversUnassigned p slice access newRoute) :
    slice.values.countP p = values.countP p + newRoute.prod ∨ slice.values.countP p = 0 ∧ values.countP p = 0 := by
  obtain ⟨rfl, hfresh⟩ | hzero := hcovers
  · left
    rw [← length_references hwf hcells]
    exact (hupdates.countP_add_length hR (MemorySlice.nodup_references hwf hcells) (hfresh cells hcells)).symm
  · exact .inr ⟨hzero, hupdates.countP_eq_zero hR hzero⟩

/-- The cell is still to be assigned. -/
def isUnassigned (state : AssignmentState) : Bool := state = .noAssigned

theorem assignCell_isUnassigned {before after : AssignmentState} (hassigns : conditionsAssignment ≠ .noAssigned)
    (h : assignCell conditionsAssignment before = some (.ok after)) : isUnassigned after = false := by
  cases before with
  | noAssigned =>
    cases h
    exact decide_eq_false hassigns
  | assigned info => cases info <;> cases h
  | mightAssigned conditions info =>
    obtain ⟨_, _, _, _, _, _, _, -, -, -, hafter⟩ := assignCell_mightAssigned h
    obtain ⟨-, -, -, rfl⟩ | ⟨-, -, -, rfl⟩ | rfl := hafter
    · rfl
    · rfl
    · rfl

theorem updates_assignCells (hassigns : conditionsAssignment ≠ .noAssigned) {slice slice' : SignalSlice}
    {cells : List ℕ} (h : assignCells conditionsAssignment slice cells = some (slice', .ok ())) :
    slice'.route = slice.route ∧
      Updates (fun _ after => isUnassigned after = false) slice.values cells slice'.values := by
  induction cells generalizing slice with
  | nil =>
    cases h
    exact ⟨rfl, .nil _⟩
  | cons cell cells ih =>
    rw [assignCells] at h
    obtain ⟨before, hbefore, h⟩ := Option.bind_eq_some_iff.mp h
    obtain ⟨result, hresult, h⟩ := Option.bind_eq_some_iff.mp h
    cases result with
    | error e => cases h
    | ok after =>
      obtain ⟨hroute, hupdates⟩ := ih h
      exact ⟨hroute, .cons hbefore (assignCell_isUnassigned hassigns hresult) hupdates⟩

/-- What an assignment of signals leaves behind. -/
theorem assignSignals_safe (hassigns : conditionsAssignment ≠ .noAssigned) (slice : SignalSlice)
    (access newRoute : List ℕ) :
    Safe (assignSignals slice access newRoute conditionsAssignment) fun slice' =>
      slice'.route = slice.route ∧ ∃ cells, slice.accessValuesByMutReference access = .ok cells ∧
        Updates (fun _ after => isUnassigned after = false) slice.values cells slice'.values := by
  refine (safe_orPanic _).bind fun (slice', result) hperform => (safe_orError result).bind fun _ hresult => ?_
  subst hresult
  unfold performSignalAssignment at hperform
  obtain ⟨previous, -, hperform⟩ := Option.bind_eq_some_iff.mp hperform
  cases previous with
  | error e => cases hperform
  | ok previous =>
    dsimp only at hperform
    cases hdims : previous.checkCorrectDims [] (MemorySlice.newWithRoute newRoute conditionsAssignment) true with
    | error e =>
      rw [hdims] at hperform
      cases hperform
    | ok _ =>
      rw [hdims] at hperform
      cases hcells : slice.accessValuesByMutReference access with
      | error e =>
        rw [hcells] at hperform
        cases hperform
      | ok cells =>
        rw [hcells] at hperform
        obtain ⟨hroute, hupdates⟩ := updates_assignCells hassigns hperform
        exact ⟨hroute, cells, rfl, hupdates⟩

/-! ## Exact buses -/

/-- The number of cells of a field, or of its buses, that are still to be assigned. -/
def Field.remaining : Field → ℕ
  | .signal _ slice => slice.values.countP isUnassigned
  | .bus _ _ values => values.countP BusRepresentation.hasUnassignedFields

def Field.WellFormed : Field → Prop
  | .signal _ slice => slice.WellFormed
  | .bus _ route values => (⟨route, values⟩ : BusSlice).WellFormed

/-- The buses of a field. -/
def Field.elements : Field → List BusRepresentation
  | .signal .. => []
  | .bus _ _ values => values

/-- Every counter of the bus, and of the buses inside it, is exact. -/
inductive BusRepresentation.Exact : BusRepresentation → Prop where
  | intro {bus : BusRepresentation} (isSome : bus.nodePointer.isSome) (names : (bus.fields.map Field.name).Nodup)
    (positive : Positive bus.unassignedFields)
    (keys : ∀ name, name ∉ bus.fields.map Field.name → bus.unassignedFields.lookup name = none)
    (wellFormed : ∀ field ∈ bus.fields, field.WellFormed)
    (counters : ∀ field ∈ bus.fields, unassignedOf bus.unassignedFields field.name = field.remaining)
    (elements : ∀ field ∈ bus.fields, ∀ element ∈ field.elements, Exact element) : bus.Exact

theorem BusRepresentation.Exact.positive (h : bus.Exact) : Positive bus.unassignedFields := by
  obtain ⟨-, -, hpositive, -, -, -, -⟩ := h
  exact hpositive

theorem BusRepresentation.Exact.field (h : bus.Exact) {field : Field} (hfield : field ∈ bus.fields) : field.WellFormed ∧
      unassignedOf bus.unassignedFields field.name = field.remaining ∧ ∀ element ∈ field.elements, element.Exact := by
  obtain ⟨-, -, -, -, hwfs, hcounters, hexact⟩ := h
  exact ⟨hwfs field hfield, hcounters field hfield, hexact field hfield⟩

theorem Positive.lookup_eq_none (h : Positive unassigned) (hzero : unassignedOf unassigned name = 0) :
    unassigned.lookup name = none := by
  unfold unassignedOf at hzero
  cases hlookup : unassigned.lookup name with
  | none => rfl
  | some left =>
    rw [hlookup] at hzero
    cases hzero
    exact absurd hlookup (h name)

theorem entries_eq_nil (h : ∀ name, unassigned.lookup name = none) : unassigned.entries = [] := by
  cases hentries : unassigned.entries with
  | nil => rfl
  | cons entry entries =>
    have hmem : entry.1 ∈ unassigned := by
      rw [AList.mem_keys, AList.keys, hentries]
      exact List.mem_cons_self
    rw [← AList.lookup_isSome, h entry.1] at hmem
    cases hmem

variable {bus : BusRepresentation}

/-- The bus has no unassigned fields exactly if all its counters are zero. -/
theorem BusRepresentation.Exact.hasUnassignedFields_eq_false_iff (h : bus.Exact) :
    bus.hasUnassignedFields = false ↔ ∀ field ∈ bus.fields, field.remaining = 0 := by
  obtain ⟨hsome, -, hpositive, hkeys, -, hcounters, -⟩ := h
  have hnone : bus.nodePointer.isNone = false := Option.isNone_eq_false_iff.mpr hsome
  unfold BusRepresentation.hasUnassignedFields
  rw [hnone, Bool.false_or, Bool.not_eq_false', List.isEmpty_iff]
  constructor
  · intro hempty field hfield
    rw [← hcounters field hfield]
    have hlookup : bus.unassignedFields.lookup field.name = none := by
      rw [AList.lookup_eq_none, AList.mem_keys, AList.keys, hempty]
      exact List.not_mem_nil
    unfold unassignedOf
    rw [hlookup]
    rfl
  · intro hzero
    refine entries_eq_nil fun name => ?_
    by_cases hname : name ∈ bus.fields.map Field.name
    · obtain ⟨field, hfield, rfl⟩ := List.mem_map.mp hname
      exact hpositive.lookup_eq_none ((hcounters field hfield).trans (hzero field hfield))
    · exact hkeys name hname

/-- Some cell of the bus is still to be assigned. -/
inductive HasUnassignedCell : BusRepresentation → Prop where
  | signal {bus : BusRepresentation} {name : String} {slice : SignalSlice} (hfield : .signal name slice ∈ bus.fields)
    (hcell : .noAssigned ∈ slice.values) : HasUnassignedCell bus
  | bus {bus element : BusRepresentation} {name : String} {route : List ℕ} {values : List BusRepresentation}
    (hfield : .bus name route values ∈ bus.fields) (helement : element ∈ values)
    (hcell : HasUnassignedCell element) : HasUnassignedCell bus

theorem HasUnassignedCell.hasUnassignedFields (hcell : HasUnassignedCell bus) (h : bus.Exact) :
    bus.hasUnassignedFields = true := by
  induction hcell with
  | @signal bus name slice hfield hcell =>
    by_contra hnot
    have hzero := h.hasUnassignedFields_eq_false_iff.mp (Bool.eq_false_iff.mpr hnot) _ hfield
    exact List.countP_eq_zero.mp hzero _ hcell (by decide)
  | @bus bus element name route values hfield helement hcell ih =>
    by_contra hnot
    have hzero := h.hasUnassignedFields_eq_false_iff.mp (Bool.eq_false_iff.mpr hnot) _ hfield
    obtain ⟨-, -, -, -, -, -, helements⟩ := h
    exact List.countP_eq_zero.mp hzero _ helement (ih (helements _ hfield element helement))

/-! ## Replaced fields -/

variable {fields : List Field} {field : Field}

theorem mem_of_findField (h : findField fields name = some field) : field ∈ fields ∧ field.name = name := by
  unfold findField at h
  have hname := List.find?_some h
  exact ⟨List.mem_of_find?_eq_some h, of_decide_eq_true hname⟩

theorem map_name_replaceField (fields : List Field) (field : Field) :
    (replaceField fields field).map Field.name = fields.map Field.name := by
  unfold replaceField
  rw [List.map_map]
  refine List.map_congr_left fun old _ => ?_
  show Field.name (if old.name = field.name then field else old) = old.name
  by_cases hname : old.name = field.name
  · rw [if_pos hname, hname]
  · rw [if_neg hname]

theorem mem_replaceField {other : Field} (h : other ∈ replaceField fields field) :
    other = field ∨ other ∈ fields ∧ other.name ≠ field.name := by
  obtain ⟨old, hold, rfl⟩ := List.mem_map.mp h
  by_cases hname : old.name = field.name
  · exact .inl (if_pos hname)
  · rw [if_neg hname]
    exact .inr ⟨hold, hname⟩

/-- A bus stays exact if a field with its counter is replaced by another one with its counter. -/
theorem BusRepresentation.Exact.replace (h : bus.Exact) (hwf : field.WellFormed)
    (hname : field.name ∈ bus.fields.map Field.name) (hpositive : Positive unassigned)
    (hcounter : unassignedOf unassigned field.name = field.remaining)
    (hother : ∀ other, other ≠ field.name → unassigned.lookup other = bus.unassignedFields.lookup other)
    (helements : ∀ element ∈ field.elements, element.Exact) :
    BusRepresentation.Exact (.mk bus.nodePointer (replaceField bus.fields field) unassigned hasAssignment) := by
  obtain ⟨hsome, hnames, -, hkeys, hwfs, hcounters, hexact⟩ := h
  refine ⟨hsome, ?_, hpositive, fun name hnot => ?_, fun other hmem => ?_, fun other hmem => ?_,
    fun other hmem => ?_⟩
  · show ((replaceField bus.fields field).map Field.name).Nodup
    rw [map_name_replaceField]
    exact hnames
  · have hnot' : name ∉ bus.fields.map Field.name := by
      rw [← map_name_replaceField bus.fields field]
      exact hnot
    have hne : name ≠ field.name := fun heq => hnot' (heq ▸ hname)
    exact (hother name hne).trans (hkeys name hnot')
  · obtain rfl | ⟨hmem, -⟩ := mem_replaceField hmem
    · exact hwf
    · exact hwfs other hmem
  · obtain rfl | ⟨hmem, hne⟩ := mem_replaceField hmem
    · exact hcounter
    · exact (unassignedOf_congr (hother other.name hne)).trans (hcounters other hmem)
  · obtain rfl | ⟨hmem, -⟩ := mem_replaceField hmem
    · exact helements
    · exact hexact other hmem

/-! ## Whole buses -/

section

variable {completelyAssign : BusRepresentation → BusRepresentation → Except Stop BusRepresentation}
  (hcomplete : ∀ element assigned, element.Exact → Safe (completelyAssign element assigned) fun element' =>
    element'.Exact ∧ element'.hasUnassignedFields = false)

include hcomplete

theorem assignBuses_safe (assigned : BusSlice) (index : ℕ) {values : List BusRepresentation}
    (hexact : ∀ element ∈ values, element.Exact) (cells : List ℕ) :
    Safe (assignBuses completelyAssign assigned index values cells) fun values' =>
      (∀ element ∈ values', element.Exact) ∧
        Updates (fun _ after => after.hasUnassignedFields = false) values cells values' := by
  induction cells generalizing values index with
  | nil => exact ⟨hexact, .nil _⟩
  | cons cell cells ih =>
    refine (safe_orPanic _).bind fun result _ => (safe_orError _).bind fun assignedBus _ => ?_
    refine (safe_orPanic _).bind fun element hcell => ?_
    refine (hcomplete element assignedBus (hexact element (List.mem_of_getElem? hcell))).bind fun element' h => ?_
    have hset : ∀ element ∈ values.set cell element', element.Exact := fun other hother =>
      (List.mem_or_eq_of_mem_set hother).elim (hexact other) fun heq => heq ▸ h.1
    exact (ih (index + 1) hset).imp fun values' h' => ⟨h'.1, .cons hcell h.2 h'.2⟩

theorem performBusAssignment_safe (slice : BusSlice) (hexact : ∀ element ∈ slice.values, element.Exact)
    (access : List ℕ) (assigned : BusSlice) :
    Safe (performBusAssignment completelyAssign slice access assigned) fun values' =>
      (∀ element ∈ values', element.Exact) ∧ ∃ cells, slice.accessValuesByMutReference access = .ok cells ∧
        Updates (fun _ after => after.hasUnassignedFields = false) slice.values cells values' := by
  refine (safe_orError _).bind fun _ _ => (safe_orError _).bind fun cells hcells => ?_
  have hcells' : slice.accessValuesByMutReference access = .ok cells := by
    cases h : slice.accessValuesByMutReference access with
    | error e =>
      rw [h] at hcells
      cases hcells
    | ok cells' =>
      rw [h] at hcells
      cases hcells
      rfl
  exact (assignBuses_safe hcomplete assigned 0 hexact cells).imp fun values' h => ⟨h.1, cells, hcells', h.2⟩

/-- A field that is assigned completely has nothing left. -/
theorem completelyAssignField_safe (hassigns : conditionsAssignment ≠ .noAssigned) (assignedFields : List Field)
    (field : Field) (hwf : field.WellFormed) (hexact : ∀ element ∈ field.elements, element.Exact) :
    Safe (completelyAssignField completelyAssign assignedFields conditionsAssignment field) fun field' =>
      field'.name = field.name ∧ field'.WellFormed ∧ field'.remaining = 0 ∧
        ∀ element ∈ field'.elements, element.Exact := by
  have hrange : ∀ {C : Type} {slice : MemorySlice C} {cells : List ℕ},
      slice.accessValuesByMutReference [] = .ok cells → ∀ i < slice.values.length, i ∈ cells := by
    intro C slice cells hcells i hi
    cases hcells
    exact List.mem_range.mpr hi
  cases field with
  | signal name slice =>
    refine (assignSignals_safe hassigns slice [] slice.route).bind fun slice' h => ?_
    obtain ⟨hroute, cells, hcells, hupdates⟩ := h
    have hwf' : slice'.WellFormed := by
      rw [MemorySlice.WellFormed, hroute, hupdates.length_eq]
      exact hwf
    exact ⟨rfl, hwf', hupdates.countP_eq_zero_of_all (fun _ _ h => h) (hrange hcells), fun _ h => by cases h⟩
  | bus name route values =>
    refine (safe_orPanic _).bind fun assignedField _ => ?_
    cases assignedField with
    | signal => exact Stop.noConfusion
    | bus assignedName assignedRoute assignedValues =>
      refine (performBusAssignment_safe hcomplete ⟨route, values⟩ hexact [] _).bind fun values' h => ?_
      obtain ⟨hexact', cells, hcells, hupdates⟩ := h
      have hwf' : (⟨route, values'⟩ : BusSlice).WellFormed := by
        rw [MemorySlice.WellFormed, hupdates.length_eq]
        exact hwf
      exact ⟨rfl, hwf', hupdates.countP_eq_zero_of_all (fun _ _ h => h) (hrange hcells), hexact'⟩

end

theorem lookup_foldl_erase (fields : List Field) (unassigned : HashMap String ℕ) (name : String) :
    (fields.foldl (fun unassigned field => unassigned.erase field.name) unassigned).lookup name =
      if name ∈ fields.map Field.name then none else unassigned.lookup name := by
  induction fields generalizing unassigned with
  | nil => rfl
  | cons field fields ih =>
    rw [List.foldl_cons, ih, List.map_cons]
    by_cases hmem : name ∈ fields.map Field.name
    · rw [if_pos hmem, if_pos (List.mem_cons_of_mem _ hmem)]
    · rw [if_neg hmem]
      by_cases hname : name = field.name
      · subst hname
        rw [if_pos List.mem_cons_self, AList.lookup_erase]
      · rw [if_neg (List.not_mem_cons_of_ne_of_not_mem hname hmem), AList.lookup_erase_ne hname]

/-- A bus that is assigned completely stays exact, and has nothing left. -/
theorem completelyAssignBus_safe (hassigns : conditionsAssignment ≠ .noAssigned) (fuel : ℕ)
    (bus assigned : BusRepresentation) (h : bus.Exact) :
    Safe (completelyAssignBus conditionsAssignment fuel bus assigned) fun bus' =>
      bus'.Exact ∧ bus'.hasUnassignedFields = false := by
  induction fuel generalizing bus assigned with
  | zero => exact Stop.noConfusion
  | succ fuel ih =>
    obtain ⟨hsome, hnames, hpositive, hkeys, hwfs, hcounters, hexact⟩ := h
    unfold completelyAssignBus
    by_cases hassigned : bus.hasAssignment
    · rw [if_pos hassigned]
      exact Stop.noConfusion
    rw [if_neg hassigned]
    by_cases hpointer : bus.nodePointer ≠ assigned.nodePointer
    · rw [if_pos hpointer]
      exact Stop.noConfusion
    rw [if_neg hpointer]
    refine (Safe.mapM fun field hfield => completelyAssignField_safe ih hassigns assigned.fields field
      (hwfs field hfield) (hexact field hfield)).bind fun fields' hfields' => ?_
    have hmap : fields'.map Field.name = bus.fields.map Field.name :=
      Lib.map_eq_of_forall₂ hfields' fun _ _ h => h.1
    have hfield : ∀ field' ∈ fields', field'.WellFormed ∧ field'.remaining = 0 ∧
        ∀ element ∈ field'.elements, element.Exact := by
      intro field' hfield'
      obtain ⟨field, -, -, hrest⟩ := Lib.exists_of_forall₂_right hfields' hfield'
      exact hrest
    have hnone : ∀ name, AList.lookup name (bus.fields.foldl
        (fun unassigned field => unassigned.erase field.name) bus.unassignedFields) = none := by
      intro name
      rw [lookup_foldl_erase]
      by_cases hname : name ∈ bus.fields.map Field.name
      · exact if_pos hname
      · rw [if_neg hname]
        exact hkeys name hname
    have hexact' : BusRepresentation.Exact (.mk bus.nodePointer fields' (bus.fields.foldl
        (fun unassigned field => unassigned.erase field.name) bus.unassignedFields)
        (bus.hasAssignment || isAssigned conditionsAssignment)) := by
      refine ⟨hsome, hmap ▸ hnames, fun name hzero => ?_, fun name _ => hnone name, fun field' h => (hfield field' h).1,
        fun field' h => ?_, fun field' h => (hfield field' h).2.2⟩
      · rw [BusRepresentation.unassignedFields, hnone] at hzero
        cases hzero
      · rw [(hfield field' h).2.1, BusRepresentation.unassignedFields, unassignedOf, hnone]
        rfl
    exact ⟨hexact', hexact'.hasUnassignedFields_eq_false_iff.mpr fun field' h => (hfield field' h).2.1⟩

/-! ## Fields of buses -/

/-- Nothing of what is assigned was assigned before, and the value has its shape; or there is nothing left. -/
def Field.Covers (access newRoute : List ℕ) : Field → Prop
  | .signal _ slice => CoversUnassigned isUnassigned slice access newRoute
  | .bus _ route values => CoversUnassigned BusRepresentation.hasUnassignedFields ⟨route, values⟩ access newRoute

/-- The bus that an access gives has something left, or no bus has. -/
def HasRoom (slice : BusSlice) (bus : BusRepresentation) : Prop :=
  bus.hasUnassignedFields = true ∨ slice.values.countP BusRepresentation.hasUnassignedFields = 0

/-- The assignment keeps the counters exact: on the way to the assigned field every bus has something left, or none
of its array has, and the field is covered. -/
def FieldFits (newRoute : List ℕ) : AccessingInformationBus → BusRepresentation → String → Prop
  | .last access, bus, name => ∀ field, findField bus.fields name = some field → field.Covers access newRoute
  | .field access fieldAccess remainingAccess, bus, name =>
    ∀ fieldName route values, findField bus.fields name = some (.bus fieldName route values) →
      ∀ cell element, accessSingleBus ⟨route, values⟩ access = .ok (cell, element) →
        HasRoom ⟨route, values⟩ element ∧ FieldFits newRoute remainingAccess element fieldAccess

theorem accessSingleBus_safe (slice : BusSlice) (access : List ℕ) :
    Safe (accessSingleBus slice access) fun r => accessSingleBus slice access = .ok r ∧
      slice.accessValuesByMutReference access = .ok [r.1] ∧ slice.values[r.1]? = some r.2 := by
  unfold accessSingleBus
  cases h : slice.accessValuesByMutReference access with
  | error e => exact Stop.noConfusion
  | ok cells =>
    match cells with
    | [cell] =>
      show Safe (orPanic slice.values[cell]? >>= fun bus => pure (cell, bus)) fun r =>
        (orPanic slice.values[cell]? >>= fun bus => pure (cell, bus)) = .ok r ∧ _
      cases hget : slice.values[cell]? with
      | none => exact Stop.noConfusion
      | some bus => exact ⟨rfl, rfl, hget⟩
    | [] => exact Stop.noConfusion
    | _ :: _ :: _ => exact Stop.noConfusion

/-- The counter of a slice of buses after an assignment inside one of them. -/
theorem updateUnassigned_safe {slice : BusSlice} {cell : ℕ} {bus' : BusRepresentation}
    (hcell : slice.values[cell]? = some bus) (hroom : HasRoom slice bus)
    (hkeeps : bus'.hasUnassignedFields = true → bus.hasUnassignedFields = true) (hpositive : Positive unassigned)
    (hcounter : unassignedOf unassigned name = slice.values.countP BusRepresentation.hasUnassignedFields) :
    Safe (updateUnassigned unassigned name bus') fun unassigned' => Positive unassigned' ∧
      unassignedOf unassigned' name = (slice.values.set cell bus').countP BusRepresentation.hasUnassignedFields ∧
      (unassignedOf unassigned name = 0 → unassignedOf unassigned' name = 0) ∧
      ∀ other, other ≠ name → unassigned'.lookup other = unassigned.lookup other := by
  have hlt := (List.getElem?_eq_some_iff.mp hcell).1
  have hget : slice.values[cell] = bus := (List.getElem?_eq_some_iff.mp hcell).2
  have hset := List.countP_set (p := BusRepresentation.hasUnassignedFields) (a := bus') hlt
  rw [hget] at hset
  unfold updateUnassigned
  by_cases hleft : bus'.hasUnassignedFields = true
  · have hpos : 0 < slice.values.countP BusRepresentation.hasUnassignedFields :=
      List.countP_pos_iff.mpr ⟨bus, List.mem_of_getElem? hcell, hkeeps hleft⟩
    rw [hkeeps hleft, hleft, if_pos rfl] at hset
    rw [if_pos hleft]
    exact ⟨hpositive, by omega, id, fun _ _ => rfl⟩
  · have hdone : bus'.hasUnassignedFields = false := Bool.eq_false_iff.mpr hleft
    rw [hdone, if_neg Bool.false_ne_true] at hset
    rw [if_neg hleft]
    refine (subtractUnassigned_safe hpositive ?_).imp fun unassigned' h => ⟨h.1, h.2.1, fun hzero => ?_, h.2.2⟩
    · rw [hcounter, hset]
      obtain hroom | hzero := hroom
      · have hpos : 0 < slice.values.countP BusRepresentation.hasUnassignedFields :=
          List.countP_pos_iff.mpr ⟨bus, List.mem_of_getElem? hcell, hroom⟩
        rw [hroom, if_pos rfl]
        exact .inl (by omega)
      · exact .inr ⟨hzero, by omega⟩
    · rw [h.2.1, hset]
      omega

/-- Counters are only removed or lowered. -/
theorem hasUnassignedFields_of_mk
    (hkeys : ∀ name, bus.unassignedFields.lookup name = none → unassigned.lookup name = none)
    (h : BusRepresentation.hasUnassignedFields (.mk bus.nodePointer fields unassigned hasAssignment) = true) :
    bus.hasUnassignedFields = true := by
  by_contra hnot
  have hfalse := Bool.eq_false_iff.mpr hnot
  unfold BusRepresentation.hasUnassignedFields at h hfalse
  obtain ⟨hnone, hempty⟩ := Bool.or_eq_false_iff.mp hfalse
  have hentries : bus.unassignedFields.entries = [] := by
    rw [Bool.not_eq_false', List.isEmpty_iff] at hempty
    exact hempty
  have hlookup : ∀ name, bus.unassignedFields.lookup name = none := by
    intro name
    rw [AList.lookup_eq_none, AList.mem_keys, AList.keys, hentries]
    exact List.not_mem_nil
  have hentries' : unassigned.entries = [] := entries_eq_nil fun name => hkeys name (hlookup name)
  show False
  rw [BusRepresentation.unassignedFields, hentries', BusRepresentation.nodePointer, hnone] at h
  cases h

/-- A counter that is missing stays missing when counters are lowered. -/
theorem lookup_eq_none_of_lowered {unassigned' : HashMap String ℕ} (hpositive : Positive unassigned')
    (hzero : unassignedOf unassigned name = 0 → unassignedOf unassigned' name = 0)
    (hother : ∀ other, other ≠ name → unassigned'.lookup other = unassigned.lookup other) (other : String)
    (hnone : unassigned.lookup other = none) : unassigned'.lookup other = none := by
  by_cases hne : other = name
  · subst hne
    refine hpositive.lookup_eq_none (hzero ?_)
    unfold unassignedOf
    rw [hnone]
    rfl
  · rw [hother other hne, hnone]

section

variable {conditionsAssignment : AssignmentState} (hassigns : conditionsAssignment ≠ .noAssigned) (fuel : ℕ)

include hassigns

theorem assignLastField_safe (access : List ℕ) (field : Field) (value : FoldedArgument) (hwf : field.WellFormed)
    (hexact : ∀ element ∈ field.elements, element.Exact) (hcovers : field.Covers access value.route) :
    Safe (assignLastField (completelyAssignBus conditionsAssignment fuel) conditionsAssignment access field value)
      fun field' => field'.name = field.name ∧ field'.WellFormed ∧ (∀ element ∈ field'.elements, element.Exact) ∧
        (field.remaining = field'.remaining + value.route.prod ∨ field.remaining = 0 ∧ field'.remaining = 0) := by
  match field, value with
  | .signal name slice, .signal newRoute =>
    refine (assignSignals_safe hassigns slice access newRoute).bind fun slice' h => ?_
    obtain ⟨hroute, cells, hcells, hupdates⟩ := h
    have hwf' : slice'.WellFormed := by
      rw [MemorySlice.WellFormed, hroute, hupdates.length_eq]
      exact hwf
    exact ⟨rfl, hwf', (fun _ h => by cases h), countP_of_covers hwf hcells (fun _ _ h => h) hupdates hcovers⟩
  | .bus name route values, .bus assignedBusSlice =>
    refine (performBusAssignment_safe (completelyAssignBus_safe hassigns fuel) ⟨route, values⟩ hexact access _).bind
      fun values' h => ?_
    obtain ⟨hexact', cells, hcells, hupdates⟩ := h
    have hwf' : (⟨route, values'⟩ : BusSlice).WellFormed := by
      rw [MemorySlice.WellFormed, hupdates.length_eq]
      exact hwf
    exact ⟨rfl, hwf', hexact', countP_of_covers hwf hcells (fun _ _ h => h) hupdates hcovers⟩
  | .signal .., .bus _ => exact Stop.noConfusion
  | .bus .., .signal _ => exact Stop.noConfusion

/-- An assignment that fits keeps the counters exact, and gives nothing back. -/
theorem assignValueToField_safe (value : FoldedArgument) (access : AccessingInformationBus)
    (bus : BusRepresentation) (name : String) (h : bus.Exact) (hfits : FieldFits value.route access bus name) :
    Safe (assignValueToField fuel conditionsAssignment value access bus name) fun bus' =>
      bus'.Exact ∧ (bus'.hasUnassignedFields = true → bus.hasUnassignedFields = true) := by
  induction access generalizing bus name with
  | last access =>
    refine (safe_orPanic _).bind fun field hfind => ?_
    obtain ⟨hmem, rfl⟩ := mem_of_findField hfind
    obtain ⟨hwf, hcounter, hexact⟩ := h.field hmem
    refine (assignLastField_safe hassigns fuel access field value hwf hexact (hfits field hfind)).bind
      fun field' h' => ?_
    obtain ⟨hname, hwf', hexact', hremaining⟩ := h'
    refine (subtractUnassigned_safe h.positive (hcounter ▸ hremaining)).bind fun unassigned hunassigned => ?_
    obtain ⟨hpositive, hcounter', hother⟩ := hunassigned
    refine ⟨h.replace hwf' (hname ▸ List.mem_map_of_mem hmem) hpositive (hname ▸ hcounter') (hname ▸ hother) hexact',
      hasUnassignedFields_of_mk (lookup_eq_none_of_lowered hpositive (fun hzero => ?_) hother)⟩
    omega
  | field access fieldAccess remainingAccess ih =>
    refine (safe_orPanic _).bind fun field hfind => ?_
    obtain ⟨hmem, rfl⟩ := mem_of_findField hfind
    cases field with
    | signal => exact Stop.noConfusion
    | bus fieldName route values =>
      obtain ⟨hwf, hcounter, hexact⟩ := h.field hmem
      refine (accessSingleBus_safe ⟨route, values⟩ access).bind fun r hr => ?_
      obtain ⟨cell, element⟩ := r
      obtain ⟨haccess, -, hcell⟩ := hr
      obtain ⟨hroom, hfits'⟩ := hfits fieldName route values hfind cell element haccess
      refine (ih element fieldAccess (hexact element (List.mem_of_getElem? hcell)) hfits').bind fun element' h' => ?_
      obtain ⟨hexact', hkeeps⟩ := h'
      refine (updateUnassigned_safe hcell hroom hkeeps h.positive hcounter).bind fun unassigned hunassigned => ?_
      obtain ⟨hpositive, hcounter', hzero, hother⟩ := hunassigned
      have hwf' : (⟨route, values.set cell element'⟩ : BusSlice).WellFormed := by
        rw [MemorySlice.WellFormed, List.length_set]
        exact hwf
      have hset : ∀ other ∈ values.set cell element', other.Exact := fun other hother =>
        (List.mem_or_eq_of_mem_set hother).elim (hexact other) fun heq => heq ▸ hexact'
      have hname : fieldName ∈ bus.fields.map Field.name := List.mem_map_of_mem (f := Field.name) hmem
      exact ⟨BusRepresentation.Exact.replace h hwf' hname hpositive hcounter' hother hset,
        hasUnassignedFields_of_mk (lookup_eq_none_of_lowered hpositive hzero hother)⟩

end

/-! ## Buses without assignments -/

theorem insertField_perm (field : Field) (h : field.name ∉ fields.map Field.name) :
    (insertField field fields).Perm (field :: fields) := by
  induction fields with
  | nil => exact .refl _
  | cons other fields ih =>
    rw [List.map_cons, List.mem_cons, not_or] at h
    unfold insertField
    by_cases hlt : field.name < other.name
    · rw [if_pos hlt]
    · rw [if_neg hlt, if_neg h.1]
      exact ((ih h.2).cons other).trans (.swap field other fields)

/-- A counter is added for a name that has none. -/
theorem insertUnassigned_spec (hpositive : Positive unassigned) (hnone : unassigned.lookup name = none) (size : ℕ) :
    Positive (insertUnassigned unassigned name size) ∧
      unassignedOf (insertUnassigned unassigned name size) name = size ∧
      ∀ other, other ≠ name → (insertUnassigned unassigned name size).lookup other = unassigned.lookup other := by
  unfold insertUnassigned
  by_cases hsize : 0 < size
  · rw [if_pos hsize]
    refine ⟨fun other hother => ?_, ?_, fun other hne => AList.lookup_insert_ne hne⟩
    · by_cases hne : other = name
      · rw [hne, AList.lookup_insert] at hother
        exact hsize.ne' (Option.some.inj hother)
      · rw [AList.lookup_insert_ne hne] at hother
        exact hpositive other hother
    · unfold unassignedOf
      rw [AList.lookup_insert]
      rfl
  · rw [if_neg hsize]
    refine ⟨hpositive, ?_, fun _ _ => rfl⟩
    unfold unassignedOf
    rw [hnone]
    show 0 = size
    omega

theorem BusRepresentation.Exact.insert {nodePointer : Option ℕ}
    (h : BusRepresentation.Exact (.mk nodePointer fields unassigned hasAssignment))
    (hname : field.name ∉ fields.map Field.name) (hwf : field.WellFormed)
    (helements : ∀ element ∈ field.elements, element.Exact) :
    BusRepresentation.Exact (.mk nodePointer (insertField field fields)
      (insertUnassigned unassigned field.name field.remaining) hasAssignment) := by
  obtain ⟨hsome, hnames, hpositive, hkeys, hwfs, hcounters, hexact⟩ := h
  have hperm := insertField_perm field hname
  have hmem : ∀ other, other ∈ insertField field fields ↔ other = field ∨ other ∈ fields := fun other =>
    hperm.mem_iff.trans List.mem_cons
  obtain ⟨hpositive', hcounter, hother⟩ := insertUnassigned_spec hpositive (hkeys field.name hname) field.remaining
  refine ⟨hsome, ?_, hpositive', fun name hnot => ?_, fun other ho => ?_, fun other ho => ?_, fun other ho => ?_⟩
  · exact (hperm.map Field.name).nodup_iff.mpr (List.nodup_cons.mpr ⟨hname, hnames⟩)
  · have hnot' : name ∉ field.name :: fields.map Field.name := fun hin =>
      hnot ((hperm.map Field.name).mem_iff.mpr hin)
    obtain ⟨hne, hnot'⟩ := not_or.mp (mt List.mem_cons.mpr hnot')
    exact (hother name hne).trans (hkeys name hnot')
  · obtain rfl | ho := (hmem other).mp ho
    · exact hwf
    · exact hwfs other ho
  · obtain rfl | ho := (hmem other).mp ho
    · exact hcounter
    · have hne : other.name ≠ field.name := fun heq => hname (heq ▸ List.mem_map_of_mem ho)
      exact (unassignedOf_congr (hother other.name hne)).trans (hcounters other ho)
  · obtain rfl | ho := (hmem other).mp ho
    · exact helements
    · exact hexact other ho

/-- A field of a wire, all of whose cells are as at the start. -/
def IsFresh (info : WireData) (field : Field) : Prop :=
  field.name = info.name ∧ field.WellFormed ∧ field.remaining = info.length.prod ∧
    ∀ element ∈ field.elements, element.Exact

theorem isFresh_signal (info : WireData) :
    IsFresh info (.signal info.name (MemorySlice.newWithRoute info.length AssignmentState.noAssigned)) := by
  refine ⟨rfl, MemorySlice.wellFormed_newWithRoute _ _, ?_, fun _ h => by cases h⟩
  have hwf := MemorySlice.wellFormed_newWithRoute info.length AssignmentState.noAssigned
  exact (List.countP_eq_length.mpr fun a ha => by rw [List.eq_of_mem_replicate ha]; rfl).trans hwf

theorem isFresh_bus (info : WireData) {element : BusRepresentation} (hexact : element.Exact)
    (hunassigned : element.hasUnassignedFields = true) :
    IsFresh info (.bus info.name (MemorySlice.newWithRoute info.length element).route
      (MemorySlice.newWithRoute info.length element).values) := by
  have hwf := MemorySlice.wellFormed_newWithRoute info.length element
  have hall : ∀ a ∈ (MemorySlice.newWithRoute info.length element).values, a = element := fun a ha =>
    List.eq_of_mem_replicate ha
  refine ⟨rfl, hwf, ?_, fun a ha => hall a ha ▸ hexact⟩
  exact (List.countP_eq_length.mpr fun a ha => hall a ha ▸ hunassigned).trans hwf

/-- The bus of the node, and the buses of its fields, have a field that is not an empty array. -/
def Filled (busesInfo : List ExecutedBus) : ℕ → ℕ → Prop
  | 0, _ => True
  | fuel + 1, node => ∀ bus, busesInfo[node]? = some bus →
    (∃ info ∈ bus.fields, 0 < info.length.prod) ∧
      ∀ info ∈ bus.fields, info.isBus → ∀ connexion, bus.busConnexions.lookup info.name = some connexion →
        Filled busesInfo fuel connexion.inspect.goesTo

theorem initializeFields_safe {newBus : ℕ → Except Stop BusRepresentation} {connexions : HashMap String BusConnexion}
    {nodePointer : Option ℕ} (infos : List WireData)
    (hnewBus : ∀ info ∈ infos, info.isBus → ∀ connexion, connexions.lookup info.name = some connexion → Safe (newBus connexion.inspect.goesTo) fun element => element.Exact ∧ element.hasUnassignedFields = true)
    (h : BusRepresentation.Exact (.mk nodePointer fields unassigned false)) (hnames : (infos.map WireData.name).Nodup)
    (hdisjoint : ∀ info ∈ infos, info.name ∉ fields.map Field.name) :
    Safe (initializeFields newBus connexions fields unassigned infos) fun r =>
      BusRepresentation.Exact (.mk nodePointer r.1 r.2 false) ∧ fields ⊆ r.1 ∧
        ∀ info ∈ infos, ∃ field ∈ r.1, field.remaining = info.length.prod := by
  induction infos generalizing fields unassigned with
  | nil => exact ⟨h, fun _ => id, fun _ hinfo => by cases hinfo⟩
  | cons info infos ih =>
    obtain ⟨hnotMem, hnames⟩ := List.nodup_cons.mp hnames
    have hname := hdisjoint info List.mem_cons_self
    have hstep : ∀ field, IsFresh info field →
        Safe (initializeFields newBus connexions (insertField field fields)
          (insertUnassigned unassigned info.name field.remaining) infos) fun r =>
            BusRepresentation.Exact (.mk nodePointer r.1 r.2 false) ∧ fields ⊆ r.1 ∧
              ∀ other ∈ info :: infos, ∃ field ∈ r.1, field.remaining = other.length.prod := by
      intro field hfresh
      obtain ⟨hfield, hwf, hremaining, helements⟩ := hfresh
      have hperm := insertField_perm field (hfield ▸ hname)
      have hinsert := h.insert (hfield ▸ hname) hwf helements
      rw [hfield] at hinsert
      refine (ih (fun other ho => hnewBus other (List.mem_cons_of_mem _ ho)) hinsert hnames fun other ho => ?_).imp
        fun r hr => ⟨hr.1, fun old hold => hr.2.1 (hperm.mem_iff.mpr (List.mem_cons_of_mem _ hold)),
          List.forall_mem_cons.mpr ⟨⟨field, hr.2.1 (hperm.mem_iff.mpr List.mem_cons_self), hremaining⟩, hr.2.2⟩⟩
      rw [(hperm.map Field.name).mem_iff, List.map_cons, List.mem_cons, not_or, hfield]
      refine ⟨fun heq => hnotMem (heq ▸ List.mem_map_of_mem ho), hdisjoint other (List.mem_cons_of_mem _ ho)⟩
    unfold initializeFields
    by_cases hbus : info.isBus
    · rw [if_pos hbus]
      refine (safe_orPanic _).bind fun connexion hconnexion => ?_
      refine (hnewBus info List.mem_cons_self hbus connexion hconnexion).bind fun element helement => ?_
      have hfresh := isFresh_bus info helement.1 helement.2
      have hsize : Field.remaining _ = (MemorySlice.newWithRoute info.length element).getNumberOfCells :=
        hfresh.2.2.1.trans hfresh.2.1.symm
      have hrest := hstep _ hfresh
      rw [hsize] at hrest
      exact hrest
    · rw [if_neg hbus]
      have hfresh := isFresh_signal info
      have hsize : Field.remaining _ =
          (MemorySlice.newWithRoute info.length AssignmentState.noAssigned).getNumberOfCells :=
        hfresh.2.2.1.trans hfresh.2.1.symm
      have hrest := hstep _ hfresh
      rw [hsize] at hrest
      exact hrest

/-- A bus that is not assigned is exact, and has unassigned fields. -/
theorem initializeBus_safe {busesInfo : List ExecutedBus}
    (hnames : ∀ bus ∈ busesInfo, (bus.fields.map WireData.name).Nodup) (fuel node : ℕ)
    (hfilled : Filled busesInfo fuel node) :
    Safe (initializeBus busesInfo fuel node) fun bus => bus.Exact ∧ bus.hasUnassignedFields = true := by
  induction fuel generalizing node with
  | zero => exact Stop.noConfusion
  | succ fuel ih =>
    refine (safe_orPanic _).bind fun bus hbus => ?_
    obtain ⟨⟨info, hinfo, hpos⟩, hfields⟩ := hfilled bus hbus
    have hempty : BusRepresentation.Exact (.mk (some node) [] ∅ false) :=
      ⟨rfl, List.nodup_nil, nofun, fun _ _ => rfl, nofun, nofun, nofun⟩
    refine (initializeFields_safe bus.fields
      (fun info hinfo hisBus connexion hlookup => ih _ (hfields info hinfo hisBus connexion hlookup)) hempty
      (hnames bus (List.mem_of_getElem? hbus)) fun _ _ h => by cases h).bind fun r hr => ?_
    obtain ⟨hexact, -, hall⟩ := hr
    refine ⟨hexact, ?_⟩
    obtain ⟨field, hfield, hremaining⟩ := hall info hinfo
    by_contra hnot
    have hzero := hexact.hasUnassignedFields_eq_false_iff.mp (Bool.eq_false_iff.mpr hnot) field hfield
    omega

end Circom.ConstraintGeneration.EnvironmentUtils
