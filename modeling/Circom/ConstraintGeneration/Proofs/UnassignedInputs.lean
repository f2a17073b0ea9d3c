import Circom.ConstraintGeneration.ComponentRepresentation
import Circom.ConstraintGeneration.Proofs.BusCounters
import Mathlib.Tactic.Tauto

/-!
# The counters of the inputs of a component

The counters of an initialised component are exact as long as every assignment fits: nothing of what it assigns was
assigned before, or nothing is left of the input. This holds along every run of assignments, those that are kept
until the component is initialised included.
-/

namespace Circom.ConstraintGeneration.EnvironmentUtils

open Circom.Lib (HashMap Updates)
open Circom.ProgramStructure (MemorySlice)

variable {I W : Type} {checks : TagChecks I W}

namespace ComponentRepresentation

/-- The counters are exact, those inside the buses included. -/
structure Exact (component : ComponentRepresentation I) : Prop where
  isSome : component.nodePointer.isSome
  positive : Positive component.unassignedInputs
  /-- Only inputs have counters, and no name is one of a signal and of a bus. -/
  keys : ∀ name, component.inputs.lookup name = none → component.inputBuses.lookup name = none →
    component.unassignedInputs.lookup name = none
  disjoint : ∀ name slice, component.inputs.lookup name = some slice → component.inputBuses.lookup name = none
  signals : ∀ name slice, component.inputs.lookup name = some slice → slice.WellFormed ∧
    unassignedOf component.unassignedInputs name = slice.values.countP isUnassigned
  buses : ∀ name slice, component.inputBuses.lookup name = some slice → slice.WellFormed ∧
    unassignedOf component.unassignedInputs name = slice.values.countP BusRepresentation.hasUnassignedFields ∧
      ∀ element ∈ slice.values, element.Exact

/-- The assignment fits the inputs of an initialised component. -/
def Fits (component : ComponentRepresentation I) : ToAssign → Prop
  | .signal name access route => ∀ slice, component.inputs.lookup name = some slice →
    CoversUnassigned isUnassigned slice access route
  | .bus name access busSlice => ∀ slice, component.inputBuses.lookup name = some slice →
    CoversUnassigned BusRepresentation.hasUnassignedFields slice access busSlice.route
  | .busField name (.field access fieldAccess remainingAccess) value => ∀ slice,
    component.inputBuses.lookup name = some slice →
      ∀ cell element, accessSingleBus slice access = .ok (cell, element) →
        HasRoom slice element ∧ FieldFits value.route remainingAccess element fieldAccess
  | .busField _ (.last _) _ => True

variable {component : ComponentRepresentation I}

theorem Exact.insertSignals (h : component.Exact) {name : String} {slice' : SignalSlice}
    {unassigned : HashMap String ℕ} (hbus : component.inputBuses.lookup name = none) (hwf : slice'.WellFormed)
    (hpositive : Positive unassigned) (hcounter : unassignedOf unassigned name = slice'.values.countP isUnassigned)
    (hother : ∀ other, other ≠ name → unassigned.lookup other = component.unassignedInputs.lookup other) :
    Exact { component with inputs := component.inputs.insert name slice', unassignedInputs := unassigned } := by
  have hinputs : ∀ other, other ≠ name →
      (component.inputs.insert name slice').lookup other = component.inputs.lookup other := fun other hne =>
    AList.lookup_insert_ne hne
  refine ⟨h.isSome, hpositive, fun other hnone hbuses => ?_, fun other slice₁ hslice => ?_,
    fun other slice₁ hslice => ?_, fun other slice₁ hslice => ?_⟩
  · by_cases hne : other = name
    · rw [hne, AList.lookup_insert] at hnone
      cases hnone
    · rw [hother other hne]
      exact h.keys other ((hinputs other hne).symm.trans hnone) hbuses
  · by_cases hne : other = name
    · exact hne ▸ hbus
    · exact h.disjoint other slice₁ ((hinputs other hne).symm.trans hslice)
  · by_cases hne : other = name
    · subst hne
      rw [AList.lookup_insert] at hslice
      obtain rfl := Option.some.inj hslice
      exact ⟨hwf, hcounter⟩
    · obtain ⟨hwf₁, hcounter₁⟩ := h.signals other slice₁ ((hinputs other hne).symm.trans hslice)
      exact ⟨hwf₁, (unassignedOf_congr (hother other hne)).trans hcounter₁⟩
  · have hne : other ≠ name := by
      rintro rfl
      rw [hbus] at hslice
      cases hslice
    obtain ⟨hwf₁, hcounter₁, helements⟩ := h.buses other slice₁ hslice
    exact ⟨hwf₁, (unassignedOf_congr (hother other hne)).trans hcounter₁, helements⟩

theorem Exact.insertBuses (h : component.Exact) {name : String} {slice' : BusSlice}
    {unassigned : HashMap String ℕ} (hsignal : component.inputs.lookup name = none)
    (hwf : slice'.WellFormed) (hpositive : Positive unassigned)
    (hcounter : unassignedOf unassigned name = slice'.values.countP BusRepresentation.hasUnassignedFields)
    (hother : ∀ other, other ≠ name → unassigned.lookup other = component.unassignedInputs.lookup other)
    (helements : ∀ element ∈ slice'.values, element.Exact) :
    Exact { component with
      inputBuses := component.inputBuses.insert name slice', unassignedInputs := unassigned } := by
  have hbuses : ∀ other, other ≠ name →
      (component.inputBuses.insert name slice').lookup other = component.inputBuses.lookup other := fun other hne =>
    AList.lookup_insert_ne hne
  refine ⟨h.isSome, hpositive, fun other hnone hbus => ?_, fun other slice₁ hslice => ?_,
    fun other slice₁ hslice => ?_, fun other slice₁ hslice => ?_⟩
  · by_cases hne : other = name
    · rw [hne, AList.lookup_insert] at hbus
      cases hbus
    · rw [hother other hne]
      exact h.keys other hnone ((hbuses other hne).symm.trans hbus)
  · have hne : other ≠ name := by
      rintro rfl
      rw [hsignal] at hslice
      cases hslice
    exact (hbuses other hne).trans (h.disjoint other slice₁ hslice)
  · have hne : other ≠ name := by
      rintro rfl
      rw [hsignal] at hslice
      cases hslice
    obtain ⟨hwf₁, hcounter₁⟩ := h.signals other slice₁ hslice
    exact ⟨hwf₁, (unassignedOf_congr (hother other hne)).trans hcounter₁⟩
  · by_cases hne : other = name
    · subst hne
      rw [AList.lookup_insert] at hslice
      obtain rfl := Option.some.inj hslice
      exact ⟨hwf, hcounter, helements⟩
    · obtain ⟨hwf₁, hcounter₁, helements₁⟩ := h.buses other slice₁ ((hbuses other hne).symm.trans hslice)
      exact ⟨hwf₁, (unassignedOf_congr (hother other hne)).trans hcounter₁, helements₁⟩

theorem Exact.lookup_inputs (h : component.Exact) {name : String} {slice : BusSlice}
    (hlookup : component.inputBuses.lookup name = some slice) : component.inputs.lookup name = none := by
  cases hinput : component.inputs.lookup name with
  | none => rfl
  | some slice₁ =>
    rw [h.disjoint name slice₁ hinput] at hlookup
    cases hlookup

/-! ## Assignments -/

theorem safe_orStop {α : Type} (x : Option (Except AssignmentError α)) : Safe (orStop x) fun _ => True :=
  (safe_orPanic x).bind fun _ _ => (safe_orError _).imp fun _ _ => trivial

section

variable {conditionsAssignment : AssignmentState} (hassigns : conditionsAssignment ≠ .noAssigned) (fuel : ℕ)
  (tags : W)

include hassigns

/-- An assignment that fits keeps the counters exact, and does not subtract too much. -/
theorem assignInit_safe (h : component.Exact) (target : ToAssign) (hfits : component.Fits target) :
    Safe (assignInit checks fuel component tags conditionsAssignment target) fun component' =>
      component'.Exact ∧ component'.isInitialized = component.isInitialized ∧
        component'.outputs = component.outputs := by
  have hpre : (!component.isPreinitialized) = false := by
    rw [isPreinitialized, h.isSome]
    rfl
  cases target with
  | signal name access route =>
    unfold assignInit assignValueToSignalInit
    dsimp only
    rw [hpre, if_neg Bool.false_ne_true]
    cases hlookup : component.inputs.lookup name with
    | none => exact Stop.noConfusion
    | some slice =>
      refine (safe_orStop _).bind fun _ _ => ?_
      obtain ⟨hwf, hcounter⟩ := h.signals name slice hlookup
      refine (assignSignals_safe hassigns slice access route).bind fun slice' h' => ?_
      obtain ⟨hroute, cells, hcells, hupdates⟩ := h'
      have hremaining := countP_of_covers hwf hcells (fun _ _ h => h) hupdates (hfits slice hlookup)
      refine (subtractUnassigned_safe h.positive (hcounter ▸ hremaining)).bind fun unassigned hunassigned => ?_
      obtain ⟨hpositive, hcounter', hother⟩ := hunassigned
      have hwf' : slice'.WellFormed := by
        rw [MemorySlice.WellFormed, hroute, hupdates.length_eq]
        exact hwf
      exact ⟨h.insertSignals (h.disjoint name slice hlookup) hwf' hpositive hcounter' hother, rfl, rfl⟩
  | bus name access busSlice =>
    unfold assignInit assignValueToBusInit
    dsimp only
    rw [hpre, if_neg Bool.false_ne_true]
    cases hlookup : component.inputBuses.lookup name with
    | none => exact Stop.noConfusion
    | some slice =>
      refine (safe_orStop _).bind fun _ _ => ?_
      obtain ⟨hwf, hcounter, helements⟩ := h.buses name slice hlookup
      refine (performBusAssignment_safe (completelyAssignBus_safe hassigns fuel) slice helements access busSlice).bind
        fun values h' => ?_
      obtain ⟨helements', cells, hcells, hupdates⟩ := h'
      have hremaining := countP_of_covers hwf hcells (fun _ _ h => h) hupdates (hfits slice hlookup)
      refine (subtractUnassigned_safe h.positive (hcounter ▸ hremaining)).bind fun unassigned hunassigned => ?_
      obtain ⟨hpositive, hcounter', hother⟩ := hunassigned
      have hwf' : (⟨slice.route, values⟩ : BusSlice).WellFormed := by
        rw [MemorySlice.WellFormed, hupdates.length_eq]
        exact hwf
      exact ⟨h.insertBuses (h.lookup_inputs hlookup) hwf' hpositive hcounter' hother helements', rfl, rfl⟩
  | busField name access value =>
    unfold assignInit assignValueToBusFieldInit
    dsimp only
    rw [hpre, if_neg Bool.false_ne_true]
    cases hlookup : component.inputBuses.lookup name with
    | none => exact Stop.noConfusion
    | some slice =>
      refine (safe_orStop _).bind fun _ _ => ?_
      obtain ⟨hwf, hcounter, helements⟩ := h.buses name slice hlookup
      cases access with
      | last access => exact Stop.noConfusion
      | field access fieldAccess remainingAccess =>
        refine (accessSingleBus_safe slice access).bind fun r hr => ?_
        obtain ⟨cell, element⟩ := r
        obtain ⟨haccess, -, hcell⟩ := hr
        obtain ⟨hroom, hfits'⟩ := hfits slice hlookup cell element haccess
        refine (assignValueToField_safe hassigns fuel value remainingAccess element fieldAccess
          (helements element (List.mem_of_getElem? hcell)) hfits').bind fun element' h' => ?_
        obtain ⟨hexact', hkeeps⟩ := h'
        refine (updateUnassigned_safe hcell hroom hkeeps h.positive hcounter).bind fun unassigned hunassigned => ?_
        obtain ⟨hpositive, hcounter', -, hother⟩ := hunassigned
        have hwf' : (⟨slice.route, slice.values.set cell element'⟩ : BusSlice).WellFormed := by
          rw [MemorySlice.WellFormed, List.length_set]
          exact hwf
        have hset : ∀ other ∈ slice.values.set cell element', other.Exact := fun other hother =>
          (List.mem_or_eq_of_mem_set hother).elim (helements other) fun heq => heq ▸ hexact'
        exact ⟨h.insertBuses (h.lookup_inputs hlookup) hwf' hpositive hcounter' hother hset, rfl, rfl⟩

end

/-! ## The initialisation -/

/-- The buses of the inputs have a field that is not an empty array, and so have those inside them. -/
def InputsFilled (busesInfo : List ExecutedBus) (fuel : ℕ) (connexions : HashMap String BusConnexion)
    (inputs : List WireData) : Prop :=
  ∀ info ∈ inputs, info.isBus → ∀ connexion, connexions.lookup info.name = some connexion →
    Filled busesInfo fuel connexion.inspect.goesTo

theorem initializeInputs_safe {busesInfo : List ExecutedBus}
    (hbuses : ∀ bus ∈ busesInfo, (bus.fields.map WireData.name).Nodup) (fuel : ℕ)
    {connexions : HashMap String BusConnexion} (inputs : List WireData) (hnames : (inputs.map WireData.name).Nodup)
    (hfilled : InputsFilled busesInfo fuel connexions inputs) {component : ComponentRepresentation I}
    (h : component.Exact)
    (hfresh : ∀ info ∈ inputs, component.inputs.lookup info.name = none ∧
      component.inputBuses.lookup info.name = none) :
    Safe (initializeInputs busesInfo fuel connexions component inputs) Exact := by
  induction inputs generalizing component with
  | nil => exact h
  | cons info inputs ih =>
    obtain ⟨hnotMem, hnames⟩ := List.nodup_cons.mp hnames
    obtain ⟨hsignal, hbus⟩ := hfresh info List.mem_cons_self
    have hfilled' : InputsFilled busesInfo fuel connexions inputs := fun other ho =>
      hfilled other (List.mem_cons_of_mem _ ho)
    have hne : ∀ other ∈ inputs, other.name ≠ info.name := fun other ho heq =>
      hnotMem (heq ▸ List.mem_map_of_mem ho)
    have hnone := h.keys info.name hsignal hbus
    unfold initializeInputs
    by_cases hisBus : info.isBus
    · rw [if_pos hisBus]
      refine (safe_orPanic _).bind fun connexion hconnexion => ?_
      refine (initializeBus_safe hbuses fuel _ (hfilled info List.mem_cons_self hisBus connexion hconnexion)).bind
        fun element helement => ?_
      obtain ⟨-, hwf, hremaining, helements⟩ := isFresh_bus info helement.1 helement.2
      obtain ⟨hpositive, hcounter, hother⟩ := insertUnassigned_spec h.positive hnone
        (MemorySlice.newWithRoute info.length element).getNumberOfCells
      refine ih hnames hfilled' (h.insertBuses hsignal hwf hpositive (hcounter.trans ?_) hother helements)
        fun other ho => ⟨(hfresh other (List.mem_cons_of_mem _ ho)).1, ?_⟩
      · exact hwf.trans hremaining.symm
      · exact (AList.lookup_insert_ne (hne other ho)).trans (hfresh other (List.mem_cons_of_mem _ ho)).2
    · rw [if_neg hisBus]
      obtain ⟨-, hwf, hremaining, -⟩ := isFresh_signal info
      obtain ⟨hpositive, hcounter, hother⟩ := insertUnassigned_spec h.positive hnone
        (MemorySlice.newWithRoute info.length AssignmentState.noAssigned).getNumberOfCells
      refine ih hnames hfilled' (h.insertSignals hbus hwf hpositive (hcounter.trans ?_) hother)
        fun other ho => ⟨?_, (hfresh other (List.mem_cons_of_mem _ ho)).2⟩
      · exact hwf.trans hremaining.symm
      · exact (AList.lookup_insert_ne (hne other ho)).trans (hfresh other (List.mem_cons_of_mem _ ho)).1

/-- The component as it is before its initialisation: there are no inputs, and what is kept assigns. -/
structure Uninitialized (component : ComponentRepresentation I) : Prop where
  isSome : component.nodePointer.isSome
  inputs : component.inputs = ∅
  inputBuses : component.inputBuses = ∅
  unassignedInputs : component.unassignedInputs = ∅
  kept : ∀ kept ∈ component.toAssign, kept.2 ≠ .noAssigned

/-- Everything that has been kept fits when it is assigned. -/
def KeptFit (checks : TagChecks I W) (fuel : ℕ) :
    ComponentRepresentation I → List (ToAssign × AssignmentState) → Prop
  | _, [] => True
  | component, kept :: rest => component.Fits kept.1 ∧
    ∀ component', assignKeptOne checks fuel component kept = .ok component' → KeptFit checks fuel component' rest

theorem assignKept_safe (fuel : ℕ) {kept : List (ToAssign × AssignmentState)}
    (hassigns : ∀ k ∈ kept, k.2 ≠ .noAssigned) (h : component.Exact) (hfit : KeptFit checks fuel component kept) :
    Safe (assignKept checks fuel component kept) fun component' =>
      component'.Exact ∧ component'.isInitialized = component.isInitialized := by
  induction kept generalizing component with
  | nil => exact ⟨h, rfl⟩
  | cons k kept ih =>
    obtain ⟨hfits, hrest⟩ := hfit
    have hone : Safe (assignKeptOne checks fuel component k) fun component' =>
        component'.Exact ∧ component'.isInitialized = component.isInitialized ∧
          component'.outputs = component.outputs :=
      (safe_orPanic _).bind fun tags _ => assignInit_safe (hassigns k List.mem_cons_self) fuel tags h k.1 hfits
    unfold assignKept
    cases hresult : assignKeptOne checks fuel component k with
    | error stop =>
      rw [hresult] at hone
      exact hone
    | ok component' =>
      rw [hresult] at hone
      obtain ⟨hexact, hinitialized, -⟩ := hone
      exact (ih (fun k hk => hassigns k (List.mem_cons_of_mem _ hk)) hexact (hrest component' hresult)).imp
        fun _ h => ⟨h.1, h.2.trans hinitialized⟩

theorem Uninitialized.exact (h : component.Uninitialized) : component.Exact where
  isSome := h.isSome
  positive name := by
    rw [h.unassignedInputs]
    nofun
  keys name _ _ := by
    rw [h.unassignedInputs]
    rfl
  disjoint name slice hslice := by
    rw [h.inputs] at hslice
    cases hslice
  signals name slice hslice := by
    rw [h.inputs] at hslice
    cases hslice
  buses name slice hslice := by
    rw [h.inputBuses] at hslice
    cases hslice

theorem exists_initializeOutputs (component : ComponentRepresentation I) (outputs : List WireData) :
    ∃ names, initializeOutputs component outputs = { component with outputs := names } := by
  induction outputs generalizing component with
  | nil => exact ⟨component.outputs, rfl⟩
  | cons info outputs ih =>
    obtain ⟨names, hnames⟩ := ih { component with outputs := info.name :: component.outputs }
    exact ⟨names, hnames⟩

theorem initializeWires_safe {busesInfo : List ExecutedBus}
    (hbuses : ∀ bus ∈ busesInfo, (bus.fields.map WireData.name).Nodup) (fuel nodePointer : ℕ) (node : ComponentNode)
    (hfilled : InputsFilled busesInfo fuel node.busConnexions node.inputs) (h : component.Uninitialized) :
    Safe (initializeWires busesInfo fuel nodePointer node component) fun component' =>
      component'.Exact ∧ component'.isInitialized = true := by
  have hfresh : ∀ info ∈ node.inputs, component.inputs.lookup info.name = none ∧
      component.inputBuses.lookup info.name = none := by
    intro info _
    rw [h.inputs, h.inputBuses]
    exact ⟨rfl, rfl⟩
  refine (initializeInputs_safe hbuses fuel node.inputs node.names hfilled h.exact hfresh).bind
    fun initial hinitial => ?_
  obtain ⟨names, hnames⟩ := exists_initializeOutputs initial node.outputs
  rw [hnames]
  exact ⟨⟨rfl, hinitial.positive, hinitial.keys, hinitial.disjoint, hinitial.signals, hinitial.buses⟩, rfl⟩

/-! ## Runs -/

section

variable (checks) (busesInfo : List ExecutedBus) (fuel : ℕ)

/-- The components that are reached by assignments that fit. -/
inductive Reached : ComponentRepresentation I → Prop where
  | preinitialized (prenodePointer : ℕ) (inputsTags : I) :
    Reached (preinitializeComponent prenodePointer inputsTags)
  | assigned {component component' : ComponentRepresentation I} {tags : W} {conditionsAssignment : AssignmentState}
    {target : ToAssign} (h : Reached component) (hassigns : conditionsAssignment ≠ .noAssigned)
    (hfits : component.isInitialized → component.Fits target)
    (hstep : component.assign checks fuel tags conditionsAssignment target = .ok component') : Reached component'
  | initialized {component initial component' : ComponentRepresentation I} {nodePointer : ℕ} {node : ComponentNode}
    (h : Reached component) (hnot : component.isInitialized = false)
    (hfilled : InputsFilled busesInfo fuel node.busConnexions node.inputs)
    (hwires : initializeWires busesInfo fuel nodePointer node component = .ok initial)
    (hkept : KeptFit checks fuel initial component.toAssign)
    (hstep : component.initializeComponent checks busesInfo fuel nodePointer node = .ok component') :
    Reached component'

end

variable {busesInfo : List ExecutedBus} {fuel : ℕ}

/-- Before the initialisation an assignment is only kept. -/
theorem Uninitialized.assign (h : component.Uninitialized) (hnot : component.isInitialized = false) (tags : W)
    {conditionsAssignment : AssignmentState} (hassigns : conditionsAssignment ≠ .noAssigned) (target : ToAssign) :
    Safe (component.assign checks fuel tags conditionsAssignment target) fun component' =>
      component'.Uninitialized ∧ component'.isInitialized = false := by
  have hkept : ∀ {kept : List (ToAssign × AssignmentState)} (target : ToAssign),
      (∀ k ∈ kept, k ∈ component.toAssign ∨ k = (target, conditionsAssignment)) →
        ∀ k ∈ kept, k.2 ≠ .noAssigned := by
    intro kept target hall k hk
    obtain hk | rfl := hall k hk
    · exact h.kept k hk
    · exact hassigns
  cases target with
  | signal name access route =>
    unfold ComponentRepresentation.assign assignValueToSignal
    dsimp only
    rw [hnot, Bool.not_false, if_pos rfl]
    refine (safe_orStop _).bind fun inputsTags _ =>
      ⟨⟨h.isSome, h.inputs, h.inputBuses, h.unassignedInputs, hkept (.signal name access route) fun k hk => ?_⟩, rfl⟩
    unfold toAssign at hk ⊢
    simp only [List.map_append, List.mem_append, List.map_cons, List.map_nil, List.mem_singleton] at hk ⊢
    tauto
  | bus name access busSlice =>
    unfold ComponentRepresentation.assign assignValueToBus
    dsimp only
    rw [hnot, Bool.not_false, if_pos rfl]
    refine (safe_orStop _).bind fun inputsTags _ =>
      ⟨⟨h.isSome, h.inputs, h.inputBuses, h.unassignedInputs, hkept (.bus name access busSlice) fun k hk => ?_⟩, rfl⟩
    unfold toAssign at hk ⊢
    simp only [List.map_append, List.mem_append, List.map_cons, List.map_nil, List.mem_singleton] at hk ⊢
    tauto
  | busField name access value =>
    unfold ComponentRepresentation.assign assignValueToBusField
    dsimp only
    rw [hnot, Bool.not_false, if_pos rfl]
    refine (safe_orStop _).bind fun inputsTags _ =>
      ⟨⟨h.isSome, h.inputs, h.inputBuses, h.unassignedInputs, hkept (.busField name access value) fun k hk => ?_⟩, rfl⟩
    unfold toAssign at hk ⊢
    simp only [List.map_append, List.mem_append, List.map_cons, List.map_nil, List.mem_singleton] at hk ⊢
    tauto

/-- An assignment to an initialised component. -/
theorem assign_eq_assignInit (hinitialized : component.isInitialized = true) (tags : W)
    (conditionsAssignment : AssignmentState) (target : ToAssign) :
    component.assign checks fuel tags conditionsAssignment target =
      component.assignInit checks fuel tags conditionsAssignment target := by
  cases target with
  | signal name access route =>
    unfold ComponentRepresentation.assign assignInit assignValueToSignal
    dsimp only
    rw [hinitialized, Bool.not_true, if_neg Bool.false_ne_true]
  | bus name access busSlice =>
    unfold ComponentRepresentation.assign assignInit assignValueToBus
    dsimp only
    rw [hinitialized, Bool.not_true, if_neg Bool.false_ne_true]
  | busField name access value =>
    unfold ComponentRepresentation.assign assignInit assignValueToBusField
    dsimp only
    rw [hinitialized, Bool.not_true, if_neg Bool.false_ne_true]

/-- What holds along a run: the counters are exact from the initialisation on. -/
def Invariant (component : ComponentRepresentation I) : Prop :=
  component.Uninitialized ∧ component.isInitialized = false ∨ component.Exact ∧ component.isInitialized = true

theorem Invariant.assign (checks : TagChecks I W) (fuel : ℕ) (h : component.Invariant) (tags : W) {conditionsAssignment : AssignmentState}
    (hassigns : conditionsAssignment ≠ .noAssigned) (target : ToAssign)
    (hfits : component.isInitialized → component.Fits target) :
    Safe (component.assign checks fuel tags conditionsAssignment target) Invariant := by
  obtain ⟨huninitialized, hnot⟩ | ⟨hexact, hinitialized⟩ := h
  · exact (huninitialized.assign hnot tags hassigns target).imp fun _ h => .inl h
  · rw [assign_eq_assignInit hinitialized]
    exact (assignInit_safe hassigns fuel tags hexact target (hfits hinitialized)).imp
      fun _ h => .inr ⟨h.1, h.2.1.trans hinitialized⟩

theorem Invariant.initializeComponent (hbuses : ∀ bus ∈ busesInfo, (bus.fields.map WireData.name).Nodup)
    (h : component.Invariant) (hnot : component.isInitialized = false) {nodePointer : ℕ} {node : ComponentNode}
    (hfilled : InputsFilled busesInfo fuel node.busConnexions node.inputs)
    (hkept : ∀ initial, initializeWires busesInfo fuel nodePointer node component = .ok initial →
      KeptFit checks fuel initial component.toAssign) :
    Safe (component.initializeComponent checks busesInfo fuel nodePointer node) Invariant := by
  have huninitialized : component.Uninitialized := by
    obtain ⟨huninitialized, -⟩ | ⟨-, hinitialized⟩ := h
    · exact huninitialized
    · rw [hnot] at hinitialized
      cases hinitialized
  have hwires := initializeWires_safe hbuses fuel nodePointer node hfilled huninitialized
  unfold ComponentRepresentation.initializeComponent
  cases hresult : initializeWires busesInfo fuel nodePointer node component with
  | error stop =>
    rw [hresult] at hwires
    exact hwires
  | ok initial =>
    rw [hresult] at hwires
    obtain ⟨hexact, hinitialized⟩ := hwires
    exact (assignKept_safe fuel huninitialized.kept hexact (hkept initial hresult)).imp
      fun _ h => .inr ⟨h.1, h.2.trans hinitialized⟩

theorem Reached.invariant (hbuses : ∀ bus ∈ busesInfo, (bus.fields.map WireData.name).Nodup)
    (h : Reached checks busesInfo fuel component) : component.Invariant := by
  induction h with
  | preinitialized => exact .inl ⟨⟨rfl, rfl, rfl, rfl, nofun⟩, rfl⟩
  | @assigned component component' tags conditionsAssignment target _ hassigns hfits hstep ih =>
    have hsafe := ih.assign checks fuel tags hassigns target hfits
    rw [hstep] at hsafe
    exact hsafe
  | @initialized component initial component' nodePointer node _ hnot hfilled hwires hkept hstep ih =>
    have hsafe := ih.initializeComponent hbuses hnot hfilled fun other hother => by
      rw [hwires] at hother
      cases hother
      exact hkept
    rw [hstep] at hsafe
    exact hsafe

/-- The counters of the inputs are what is left of them, and an output is read only when nothing is. -/
structure Counted (component : ComponentRepresentation I) : Prop where
  signals : ∀ name slice, component.inputs.lookup name = some slice →
    unassignedOf component.unassignedInputs name = slice.values.countP isUnassigned
  buses : ∀ name slice, component.inputBuses.lookup name = some slice →
    unassignedOf component.unassignedInputs name = slice.values.countP BusRepresentation.hasUnassignedFields
  outputs : ∀ name ∈ component.outputs, component.checkInitializedInputs name = .ok () →
    (∀ input slice, component.inputs.lookup input = some slice → .noAssigned ∉ slice.values) ∧
      ∀ input slice, component.inputBuses.lookup input = some slice → ∀ element ∈ slice.values,
        ¬ HasUnassignedCell element

theorem Exact.counted (h : component.Exact) : component.Counted where
  signals name slice hslice := (h.signals name slice hslice).2
  buses name slice hslice := (h.buses name slice hslice).2.1
  outputs name hname hok := by
    have hentries : component.unassignedInputs.entries = [] := by
      unfold checkInitializedInputs at hok
      rw [isPreinitialized, h.isSome, Bool.not_true, if_neg Bool.false_ne_true] at hok
      cases hpairs : component.unassignedInputs.pairs with
      | nil => exact List.map_eq_nil_iff.mp hpairs
      | cons missing rest =>
        rw [hpairs] at hok
        dsimp only at hok
        rw [if_pos hname] at hok
        cases hok
    have hzero : ∀ input, unassignedOf component.unassignedInputs input = 0 := by
      intro input
      have hlookup : component.unassignedInputs.lookup input = none := by
        rw [AList.lookup_eq_none, AList.mem_keys, AList.keys, hentries]
        exact List.not_mem_nil
      unfold unassignedOf
      rw [hlookup]
      rfl
    refine ⟨fun input slice hslice hmem => ?_, fun input slice hslice element helement hcell => ?_⟩
    · have hcount := (h.signals input slice hslice).2
      rw [hzero] at hcount
      exact List.countP_eq_zero.mp hcount.symm _ hmem (by decide)
    · obtain ⟨-, hcount, helements⟩ := h.buses input slice hslice
      rw [hzero] at hcount
      exact List.countP_eq_zero.mp hcount.symm _ helement (hcell.hasUnassignedFields (helements element helement))

/-- Along every run of assignments that fit, the counters are exact and the subtraction does not underflow. -/
theorem unassignedInputs_exact (hbuses : ∀ bus ∈ busesInfo, (bus.fields.map WireData.name).Nodup)
    (h : Reached checks busesInfo fuel component) :
    (component.isInitialized → component.Counted) ∧
    (∀ (tags : W) (conditionsAssignment : AssignmentState) (target : ToAssign), conditionsAssignment ≠ .noAssigned →
      (component.isInitialized → component.Fits target) →
        component.assign checks fuel tags conditionsAssignment target ≠ .error .underflow) ∧
    ∀ (nodePointer : ℕ) (node : ComponentNode), component.isInitialized = false →
      InputsFilled busesInfo fuel node.busConnexions node.inputs →
      (∀ initial, initializeWires busesInfo fuel nodePointer node component = .ok initial →
        KeptFit checks fuel initial component.toAssign) →
      component.initializeComponent checks busesInfo fuel nodePointer node ≠ .error .underflow := by
  have hinvariant := h.invariant hbuses
  refine ⟨fun hinitialized => ?_, fun tags conditionsAssignment target hassigns hfits herror => ?_,
    fun nodePointer node hnot hfilled hkept herror => ?_⟩
  · obtain ⟨-, hnot⟩ | ⟨hexact, -⟩ := hinvariant
    · rw [hnot] at hinitialized
      cases hinitialized
    · exact hexact.counted
  · have hsafe := hinvariant.assign checks fuel tags hassigns target hfits
    rw [herror] at hsafe
    exact hsafe rfl
  · have hsafe := hinvariant.initializeComponent hbuses hnot hfilled hkept
    rw [herror] at hsafe
    exact hsafe rfl

/-- There are no tags. -/
def noTags : TagChecks Unit Unit where
  handleTagAssignmentNoInit _ _ _ := some (.ok ())
  handleTagAssignmentInit _ _ _ := some (.ok ())
  tagsOf _ _ := some ()

/-- A template with the inputs `in[2]` and the output `out`. -/
def pairNode : ComponentNode where
  inputs := [⟨"in", [2], false⟩]
  outputs := [⟨"out", [], false⟩]
  busConnexions := ∅
  names := List.nodup_singleton _

/-- The component of the template, with the cells of its input and the counter. -/
def pairComponent (cells : List AssignmentState) (counters : List (String × ℕ)) : ComponentRepresentation Unit where
  nodePointer := some 0
  unassignedInputs := AList.ofPairs counters
  inputs := AList.ofPairs [("in", ⟨[2], cells⟩)]
  inputsTags := ()
  outputs := ["out"]
  isInitialized := true

/-- The component after `c.in[0] <== 1;`. -/
theorem unassignedInputs_exact_pair :
    (pairComponent [.assigned none, .noAssigned] [("in", 1)]).isInitialized ∧
      (pairComponent [.assigned none, .noAssigned] [("in", 1)]).Counted := by
  have hpreinitialized : Reached noTags [] 0 (preinitializeComponent 0 ()) := .preinitialized 0 ()
  have hwires : initializeWires [] 0 0 pairNode (preinitializeComponent 0 ()) =
      .ok (pairComponent [.noAssigned, .noAssigned] [("in", 2)]) := rfl
  have hinitialized : Reached noTags [] 0 (pairComponent [.noAssigned, .noAssigned] [("in", 2)]) :=
    .initialized hpreinitialized rfl (fun info hinfo hbus => by cases List.mem_singleton.mp hinfo; cases hbus) hwires
      trivial rfl
  have hfits : (pairComponent [.noAssigned, .noAssigned] [("in", 2)]).Fits (.signal "in" [0] []) := by
    intro slice hslice
    cases hslice
    refine .inl ⟨rfl, fun cells hcells cell hcell a ha => ?_⟩
    have hzero : cells = [0] := (Except.ok.inj hcells).symm
    subst hzero
    cases List.mem_singleton.mp hcell
    cases ha
    rfl
  have hstep : assign noTags 0 (pairComponent [.noAssigned, .noAssigned] [("in", 2)]) () (.assigned none)
      (.signal "in" [0] []) = .ok (pairComponent [.assigned none, .noAssigned] [("in", 1)]) := rfl
  have hassigned : Reached noTags [] 0 (pairComponent [.assigned none, .noAssigned] [("in", 1)]) :=
    .assigned hinitialized AssignmentState.noConfusion (fun _ => hfits) hstep
  exact ⟨rfl, (unassignedInputs_exact (fun bus hbus => by cases hbus) hassigned).1 rfl⟩

/-- `if (s) { c.in[0] <-- 1; } else { c.in[0] <-- 2; }` makes the output readable, although `in[1]` is not assigned.
`if (s) { c.in[0] <-- 1; } else { c.in <-- [1, 2]; }` subtracts two from one. -/
theorem not_unassignedInputs_exact :
    assign noTags 0 (pairComponent [.noAssigned, .noAssigned] [("in", 2)]) () (.mightAssigned [(0, true)] none)
        (.signal "in" [0] []) =
      .ok (pairComponent [.mightAssigned [(0, true)] none, .noAssigned] [("in", 1)]) ∧
    assign noTags 0 (pairComponent [.mightAssigned [(0, true)] none, .noAssigned] [("in", 1)]) ()
        (.mightAssigned [(0, false)] none) (.signal "in" [0] []) =
      .ok (pairComponent [.assigned none, .noAssigned] []) ∧
    (pairComponent [.assigned none, .noAssigned] []).checkInitializedInputs "out" = .ok () ∧
    ¬ (pairComponent [.assigned none, .noAssigned] []).Counted ∧
    assign noTags 0 (pairComponent [.mightAssigned [(0, true)] none, .noAssigned] [("in", 1)]) ()
        (.mightAssigned [(0, false)] none) (.signal "in" [] [2]) = .error .underflow := by
  refine ⟨rfl, rfl, rfl, fun h => ?_, rfl⟩
  have hcount : 0 = 1 := h.signals "in" ⟨[2], [.assigned none, .noAssigned]⟩ rfl
  cases hcount

end ComponentRepresentation

end Circom.ConstraintGeneration.EnvironmentUtils
