import Circom.IrProcessing.Proofs.Visits
import Std.Data.String.ToNat

/-!
# The stores of a component with a known address

Nested lists are visited with `inside_loop`: their stores count, and a store that does not run the component
is followed by another one. At the top level either all stores count, or the last one runs the component.
-/

namespace Circom.IrProcessing

open Circom.IntermediateRepresentation
open Circom.Lib (HashMap)

variable {needsDecrement : Bool} {store : InputStore} {stores : List InputStore} {status : StatusInput}
variable {n : String} {tables tables' : Tables} {v : ℕ}

theorem cmpKey_injective : Function.Injective cmpKey := by
  intro v w h
  exact Nat.repr_injective (String.append_right_inj "cmp_" |>.mp h)

@[simp] theorem isKnown_withStatus : IsKnown v (withStatus store status needsDecrement) ↔ IsKnown v store :=
  Iff.rfl

@[simp] theorem isUnknownOf_withStatus : IsUnknownOf n (withStatus store status needsDecrement) ↔ IsUnknownOf n store :=
  Iff.rfl

@[simp] theorem isAnonymousOf_withStatus :
    IsAnonymousOf n (withStatus store status needsDecrement) ↔ IsAnonymousOf n store :=
  Iff.rfl

/-- The component at `v` has the name `n`, and no anonymous component has its key. -/
structure Fits (v : ℕ) (n : String) (store : InputStore) : Prop where
  name : ∀ parseAs, store.isAnonymous = false → store.cmpAddress = .value parseAs v → store.cmpName = n
  key : store.isAnonymous = true → store.cmpName ≠ cmpKey v

theorem Fits.cmpName_eq (h : Fits v n store) (hknown : IsKnown v store) : store.cmpName = n := by
  obtain ⟨-, hanonymous, parseAs, haddress⟩ := hknown
  exact h.name parseAs hanonymous haddress

/-! ## One store -/

section Marks

variable {insideLoop : Bool} {tables tables' : Tables} {level level' : Finset String}
  {store store' : InputStore}

theorem Marks.eq_withStatus (h : Marks insideLoop tables level store store' tables' level') :
    ∃ status needsDecrement, store' = withStatus store status needsDecrement := by
  cases h with
  | _ => exact ⟨_, _, rfl⟩

theorem Marks.isKnown_iff (h : Marks insideLoop tables level store store' tables' level') :
    IsKnown v store' ↔ IsKnown v store := by
  obtain ⟨status, needsDecrement, rfl⟩ := h.eq_withStatus
  exact isKnown_withStatus

theorem Marks.isUnknownOf_iff (h : Marks insideLoop tables level store store' tables' level')
    : IsUnknownOf n store' ↔ IsUnknownOf n store := by
  obtain ⟨status, needsDecrement, rfl⟩ := h.eq_withStatus
  exact isUnknownOf_withStatus

theorem Marks.of_isKnown (h : Marks insideLoop tables level store store' tables' level') (hknown : IsKnown v store) :
    ∃ visited, visitKnown insideLoop tables level store.cmpName (cmpKey v) = visited ∧
      store' = withStatus store visited.status visited.needsDecrement ∧ tables' = visited.tables ∧
      level' = visited.assignmentsLevel := by
  obtain ⟨hsize, hanonymous, parseAs, haddress⟩ := hknown
  cases h with
  | empty _ h => simp [hsize] at h
  | anonymous _ ha => simp [hanonymous] at ha
  | known _ _ parseAs' w hw visited hvisited =>
    rw [haddress, Instruction.value.injEq] at hw
    obtain ⟨-, rfl⟩ := hw
    exact ⟨visited, hvisited, rfl, rfl, rfl⟩
  | unknown _ _ hv => exact absurd haddress (hv parseAs v)

theorem visitAnonymous_eq {visited : Visited} (h : visitAnonymous tables level n = some visited) :
    visited.needsDecrement = false ∧ visited.assignmentsLevel = level ∧
      ((∃ info, tables.assignmentStatus.lookup n = some info ∧ info.foundLast = true ∧
          visited.status = .noLast ∧ visited.tables = tables) ∨
        (tables.assignmentStatus.lookup n = none ∧ visited.status = .last ∧
          visited.tables = { tables with
            assignmentStatus := tables.assignmentStatus.insert n ⟨false, true⟩ })) := by
  unfold visitAnonymous at h
  split at h
  · rename_i info hinfo
    split_ifs at h with hfound
    obtain rfl := Option.some.inj h
    exact ⟨rfl, rfl, Or.inl ⟨info, hinfo, hfound, rfl, rfl⟩⟩
  · rename_i hnone
    obtain rfl := Option.some.inj h
    exact ⟨rfl, rfl, Or.inr ⟨hnone, rfl, rfl⟩⟩

theorem visitKnown_unknownComponentNames (n key : String) :
    (visitKnown insideLoop tables level n key).tables.unknownComponentNames =
      tables.unknownComponentNames := by
  unfold visitKnown
  repeat' split
  all_goals rfl

theorem visitKnown_lookup_of_ne (n : String) {key key' : String} (h : key' ≠ key) :
    (visitKnown insideLoop tables level n key).tables.assignmentStatus.lookup key' =
      tables.assignmentStatus.lookup key' := by
  unfold visitKnown
  repeat' split
  all_goals first | rfl | exact AList.lookup_insert_ne h

theorem visitKnown_mem_of_ne (n : String) {key key' : String} (h : key' ≠ key) :
    key' ∈ (visitKnown insideLoop tables level n key).assignmentsLevel ↔ key' ∈ level := by
  unfold visitKnown
  repeat' split
  all_goals simp [h]

theorem Marks.names (h : Marks insideLoop tables level store store' tables' level') :
    tables.unknownComponentNames ⊆ tables'.unknownComponentNames := by
  cases h with
  | empty => exact Finset.Subset.refl _
  | anonymous _ _ visited hv =>
    obtain ⟨-, -, ⟨_, -, -, -, htables⟩ | ⟨-, -, htables⟩⟩ := visitAnonymous_eq hv
    · rw [htables]
    · rw [htables]
  | known _ _ _ v _ visited hvisited =>
    rw [← hvisited, visitKnown_unknownComponentNames]
  | unknown => exact Finset.subset_insert _ _

theorem Marks.of_isUnknownOf (h : Marks insideLoop tables level store store' tables' level')
    (hunknown : IsUnknownOf n store) :
    store'.status = .unknown ∧ store'.needsDecrement = true ∧ n ∈ tables'.unknownComponentNames := by
  obtain ⟨hsize, hanonymous, rfl, haddress⟩ := hunknown
  cases h with
  | empty _ h => simp [hsize] at h
  | anonymous _ ha => simp [hanonymous] at ha
  | known _ _ parseAs w hw => exact absurd hw (haddress parseAs w)
  | unknown => exact ⟨rfl, rfl, Finset.mem_insert_self _ _⟩

/-- A store to another component leaves the state of this one. -/
theorem Marks.of_not_isKnown (h : Marks insideLoop tables level store store' tables' level') (hfits : Fits v n store)
    (hknown : ¬IsKnown v store) :
    tables'.assignmentStatus.lookup (cmpKey v) = tables.assignmentStatus.lookup (cmpKey v) ∧
      (cmpKey v ∈ level' ↔ cmpKey v ∈ level) := by
  cases h with
  | empty => exact ⟨rfl, Iff.rfl⟩
  | anonymous _ ha visited hv =>
    obtain ⟨-, hlevel, ⟨_, -, -, -, htables⟩ | ⟨-, -, htables⟩⟩ := visitAnonymous_eq hv
    · rw [htables, hlevel]
      exact ⟨rfl, Iff.rfl⟩
    · rw [htables, hlevel]
      exact ⟨AList.lookup_insert_ne (hfits.key ha).symm, Iff.rfl⟩
  | known hsize ha parseAs w hw visited hvisited =>
    have hne : cmpKey v ≠ cmpKey w := by
      intro heq
      obtain rfl := cmpKey_injective heq
      exact hknown ⟨hsize, ha, parseAs, hw⟩
    rw [← hvisited]
    exact ⟨visitKnown_lookup_of_ne _ hne, visitKnown_mem_of_ne _ hne⟩
  | unknown => exact ⟨rfl, Iff.rfl⟩

end Marks

/-! ## Nested lists -/

/-- A store that does not run the component at `v` is followed by another one. -/
def Followed (v : ℕ) : List StoreEvent → Prop
  | [] => True
  | event :: events =>
    (IsKnown v event.store → event.store.status = .noLast → ∃ e ∈ events, IsKnown v e.store) ∧
      Followed v events

theorem Followed.append {events₁ events₂ : List StoreEvent} (h₁ : Followed v events₁)
    (h₂ : Followed v events₂) : Followed v (events₁ ++ events₂) := by
  induction events₁ with
  | nil => exact h₂
  | cons event events ih =>
    refine ⟨fun hknown hstatus => ?_, ih h₁.2⟩
    obtain ⟨e, he, hknown⟩ := h₁.1 hknown hstatus
    exact ⟨e, List.mem_append_left _ he, hknown⟩

theorem Followed.append_of_exists (events₁ : List StoreEvent) {events₂ : List StoreEvent}
    (hexists : ∃ e ∈ events₂, IsKnown v e.store) (h₂ : Followed v events₂) : Followed v (events₁ ++ events₂) := by
  induction events₁ with
  | nil => exact h₂
  | cons event events ih =>
    obtain ⟨e, he, hknown⟩ := hexists
    exact ⟨fun _ _ => ⟨e, List.mem_append_right _ he, hknown⟩, ih⟩

theorem Followed.flatten {rounds : List (List StoreEvent)} (h : ∀ t ∈ rounds, Followed v t) :
    Followed v rounds.flatten := by
  induction rounds with
  | nil => trivial
  | cons round rounds ih =>
    rw [List.flatten_cons]
    exact (h round (List.mem_cons_self ..)).append (ih fun t ht => h t (List.mem_cons_of_mem _ ht))

/-- No store of the component is known to be executed. -/
def IsOpen (v : ℕ) (tables : Tables) : Prop :=
  tables.assignmentStatus.lookup (cmpKey v) = none ∨
    tables.assignmentStatus.lookup (cmpKey v) = some ⟨true, false⟩

/-- A store that counts. -/
def Counts (store : InputStore) : Prop :=
  store.needsDecrement = true ∧ (store.status = .unknown ∨ store.status = .noLast)

/-- What the visit of a nested list does, for the component at `v` of the name `n`. -/
structure Nested (v : ℕ) (n : String) (tables tables' : Tables) (stores : List InputStore)
    (runs : List StoreEvent → Prop) : Prop where
  names : tables.unknownComponentNames ⊆ tables'.unknownComponentNames
  unknown : ∀ store ∈ stores, IsUnknownOf n store →
    store.status = .unknown ∧ store.needsDecrement = true ∧ n ∈ tables'.unknownComponentNames
  closed : ∀ needsDecrement,
    tables.assignmentStatus.lookup (cmpKey v) = some ⟨needsDecrement, true⟩ →
      tables'.assignmentStatus.lookup (cmpKey v) = some ⟨needsDecrement, true⟩ ∧
        ∀ store ∈ stores, IsKnown v store →
          store.status = .noLast ∧ store.needsDecrement = needsDecrement
  isOpen : IsOpen v tables → IsOpen v tables'
  untouched : tables'.assignmentStatus.lookup (cmpKey v) = none →
    tables.assignmentStatus.lookup (cmpKey v) = none ∧ ∀ store ∈ stores, ¬IsKnown v store
  counts : IsOpen v tables → ∀ store ∈ stores, IsKnown v store → Counts store
  followed : IsOpen v tables → ∀ events, runs events → Followed v events

theorem Nested.refl (v : ℕ) (n : String) (tables : Tables) :
    Nested v n tables tables [] (fun events => events = []) where
  names := Finset.Subset.refl _
  unknown := by simp
  closed := fun _ h => ⟨h, by simp⟩
  isOpen := id
  untouched := fun h => ⟨h, by simp⟩
  counts := by simp
  followed := by
    rintro - events rfl
    trivial

/-- Two visits, one after the other. -/
theorem Nested.trans {tables₁ tables₂ : Tables}
    {stores₁ stores₂ : List InputStore} {runs₁ runs₂ runs : List StoreEvent → Prop}
    (h₁ : Nested v n tables tables₁ stores₁ runs₁) (h₂ : Nested v n tables₁ tables₂ stores₂ runs₂)
    (hstores : ∀ store ∈ stores, store ∈ stores₁ ∨ store ∈ stores₂)
    (hruns : (∀ events, runs₁ events → Followed v events) →
      (∀ events, runs₂ events → Followed v events) → ∀ events, runs events → Followed v events) :
    Nested v n tables tables₂ stores runs where
  names := h₁.names.trans h₂.names
  unknown := by
    intro store hstore hunknown
    rcases hstores store hstore with h | h
    · obtain ⟨hstatus, hdecrement, hmem⟩ := h₁.unknown store h hunknown
      exact ⟨hstatus, hdecrement, h₂.names hmem⟩
    · exact h₂.unknown store h hunknown
  closed := by
    intro needsDecrement hlookup
    obtain ⟨hlookup₁, hstores₁⟩ := h₁.closed needsDecrement hlookup
    obtain ⟨hlookup₂, hstores₂⟩ := h₂.closed needsDecrement hlookup₁
    refine ⟨hlookup₂, fun store hstore hknown => ?_⟩
    rcases hstores store hstore with h | h
    · exact hstores₁ store h hknown
    · exact hstores₂ store h hknown
  isOpen := fun hopen => h₂.isOpen (h₁.isOpen hopen)
  untouched := by
    intro hlookup
    obtain ⟨hlookup₁, hstores₂⟩ := h₂.untouched hlookup
    obtain ⟨hlookup₀, hstores₁⟩ := h₁.untouched hlookup₁
    refine ⟨hlookup₀, fun store hstore => ?_⟩
    rcases hstores store hstore with h | h
    · exact hstores₁ store h
    · exact hstores₂ store h
  counts := by
    intro hopen store hstore hknown
    rcases hstores store hstore with h | h
    · exact h₁.counts hopen store h hknown
    · exact h₂.counts (h₁.isOpen hopen) store h hknown
  followed := fun hopen => hruns (h₁.followed hopen) (h₂.followed (h₁.isOpen hopen))

/-- A store to another component. -/
theorem Marks.nested {insideLoop : Bool} {level level' : Finset String}
    {store' : InputStore} (h : Marks insideLoop tables level store store' tables' level')
    (hfits : Fits v n store) (hknown : ¬IsKnown v store) :
    Nested v n tables tables' [store'] (fun events => ∃ e : StoreEvent, e.store = store' ∧ events = [e])
    where
  names := h.names
  unknown := by
    intro s hs hunknown
    obtain rfl := List.mem_singleton.mp hs
    exact h.of_isUnknownOf (h.isUnknownOf_iff.mp hunknown)
  closed := by
    intro needsDecrement hlookup
    refine ⟨(h.of_not_isKnown hfits hknown).1.trans hlookup, fun s hs hs' => ?_⟩
    obtain rfl := List.mem_singleton.mp hs
    exact absurd (h.isKnown_iff.mp hs') hknown
  isOpen := by
    unfold IsOpen
    rw [(h.of_not_isKnown hfits hknown).1]
    exact id
  untouched := by
    rw [(h.of_not_isKnown hfits hknown).1]
    refine fun hlookup => ⟨hlookup, fun s hs hs' => ?_⟩
    obtain rfl := List.mem_singleton.mp hs
    exact hknown (h.isKnown_iff.mp hs')
  counts := by
    intro _ s hs hs'
    obtain rfl := List.mem_singleton.mp hs
    exact absurd (h.isKnown_iff.mp hs') hknown
  followed := by
    rintro - events ⟨e, rfl, rfl⟩
    exact ⟨fun hs' => absurd (h.isKnown_iff.mp hs') hknown, trivial⟩

/-- Every run stores to the component if its key is in the set of the level. -/
def Assigned (v : ℕ) (level : Finset String) (runs : List StoreEvent → Prop) : Prop :=
  cmpKey v ∈ level → ∀ events, runs events → ∃ e ∈ events, IsKnown v e.store

/-- The visit of a store to the component in a nested list. -/
theorem visitKnown_true_cases (tables : Tables) (level : Finset String) (n key : String) :
    (∃ needsDecrement, tables.assignmentStatus.lookup key = some ⟨needsDecrement, true⟩ ∧
        visitKnown true tables level n key = ⟨.noLast, needsDecrement, tables, level⟩) ∨
      (∃ needsDecrement, tables.assignmentStatus.lookup key = some ⟨needsDecrement, false⟩ ∧ key ∈ level ∧
        visitKnown true tables level n key = ⟨.noLast, true, tables, level⟩) ∨
      (∃ needsDecrement, tables.assignmentStatus.lookup key = some ⟨needsDecrement, false⟩ ∧
        visitKnown true tables level n key = ⟨.unknown, true, tables, insert key level⟩) ∨
      (tables.assignmentStatus.lookup key = none ∧
        visitKnown true tables level n key = ⟨.unknown, true, { tables with
          assignmentStatus := tables.assignmentStatus.insert key ⟨true, false⟩ }, insert key level⟩) := by
  unfold visitKnown
  cases hlookup : tables.assignmentStatus.lookup key with
  | none => exact Or.inr (Or.inr (Or.inr ⟨rfl, rfl⟩))
  | some info =>
    obtain ⟨needsDecrement, foundLast⟩ := info
    cases foundLast with
    | true => exact Or.inl ⟨needsDecrement, rfl, rfl⟩
    | false =>
      by_cases hlevel : key ∈ level
      · exact Or.inr (Or.inl ⟨needsDecrement, rfl, hlevel, by simp [hlevel]⟩)
      · exact Or.inr (Or.inr (Or.inl ⟨needsDecrement, rfl, by simp [hlevel]⟩))

theorem not_isOpen_of_lookup (h : tables.assignmentStatus.lookup (cmpKey v) = some ⟨needsDecrement, true⟩) :
    ¬IsOpen v tables := by
  rintro (hnone | hsome)
  · rw [h] at hnone
    cases hnone
  · rw [h] at hsome
    simp at hsome

/-- What the visit of a store to the component adds to the visit of the instructions after it. -/
structure Adds (v : ℕ) (tables tables' : Tables) (store : InputStore) (runs : List StoreEvent → Prop) :
    Prop where
  names : tables'.unknownComponentNames = tables.unknownComponentNames
  closed : ∀ needsDecrement,
    tables.assignmentStatus.lookup (cmpKey v) = some ⟨needsDecrement, true⟩ →
      tables'.assignmentStatus.lookup (cmpKey v) = some ⟨needsDecrement, true⟩ ∧
        store.status = .noLast ∧ store.needsDecrement = needsDecrement
  isOpen : IsOpen v tables → IsOpen v tables'
  touched : tables'.assignmentStatus.lookup (cmpKey v) ≠ none
  counts : IsOpen v tables → Counts store
  followed : IsOpen v tables → store.status = .noLast → ∀ events, runs events →
    ∃ e ∈ events, IsKnown v e.store

theorem Marks.adds {level level' : Finset String} {store' : InputStore}
    (h : Marks true tables level store store' tables' level') (hknown : IsKnown v store) {runs : List StoreEvent → Prop}
    (hlevel : Assigned v level runs) : Adds v tables tables' store' runs := by
  obtain ⟨visited, hvisited, rfl, rfl, -⟩ := h.of_isKnown hknown
  obtain ⟨d, hlookup, hvisit⟩ | ⟨d, hlookup, hmem, hvisit⟩ | ⟨d, hlookup, hvisit⟩ | ⟨hlookup, hvisit⟩ :=
    visitKnown_true_cases tables level store.cmpName (cmpKey v)
  · obtain rfl := hvisit.symm.trans hvisited
    have hopen := not_isOpen_of_lookup hlookup
    refine ⟨rfl, fun d' hd' => ⟨hd', rfl, ?_⟩, id, by simp [hlookup], fun h => absurd h hopen,
      fun h => absurd h hopen⟩
    rw [hlookup] at hd'
    simpa [withStatus] using hd'
  · obtain rfl := hvisit.symm.trans hvisited
    exact ⟨rfl, fun d' hd' => by simp [hlookup] at hd', id, by simp [hlookup],
      fun _ => ⟨rfl, Or.inr rfl⟩, fun _ _ => hlevel hmem⟩
  · obtain rfl := hvisit.symm.trans hvisited
    exact ⟨rfl, fun d' hd' => by simp [hlookup] at hd', id, by simp [hlookup],
      fun _ => ⟨rfl, Or.inl rfl⟩, fun _ h => by simp [withStatus] at h⟩
  · obtain rfl := hvisit.symm.trans hvisited
    exact ⟨rfl, fun d' hd' => by simp [hlookup] at hd', fun _ => Or.inr (AList.lookup_insert _),
      by simp, fun _ => ⟨rfl, Or.inl rfl⟩, fun _ h => by simp [withStatus] at h⟩

theorem IsKnown.not_isUnknownOf (h : IsKnown v store) : ¬IsUnknownOf n store := by
  obtain ⟨-, -, parseAs, haddress⟩ := h
  exact fun hunknown => hunknown.2.2.2 parseAs v haddress

/-- A store to the component in a nested list, before the instructions that have been visited. -/
theorem Nested.cons {tables₁ : Tables} {runs : List StoreEvent → Prop} (hrest : Nested v n tables tables₁ stores runs)
    (hadds : Adds v tables₁ tables' store runs) (hknown : IsKnown v store) :
    Nested v n tables tables' (store :: stores)
      (fun events => ∃ (e : StoreEvent) (rest : _), e.store = store ∧ runs rest ∧ events = e :: rest)
    where
  names := by
    rw [hadds.names]
    exact hrest.names
  unknown := by
    rw [hadds.names]
    intro s hs hunknown
    rcases List.mem_cons.mp hs with rfl | hs
    · exact absurd hunknown hknown.not_isUnknownOf
    · exact hrest.unknown s hs hunknown
  closed := by
    intro needsDecrement hlookup
    obtain ⟨hlookup₁, hstores⟩ := hrest.closed needsDecrement hlookup
    obtain ⟨hlookup', hstore⟩ := hadds.closed needsDecrement hlookup₁
    refine ⟨hlookup', fun s hs hs' => ?_⟩
    rcases List.mem_cons.mp hs with rfl | hs
    · exact hstore
    · exact hstores s hs hs'
  isOpen := fun hopen => hadds.isOpen (hrest.isOpen hopen)
  untouched := fun h => absurd h hadds.touched
  counts := by
    intro hopen s hs hs'
    rcases List.mem_cons.mp hs with rfl | hs
    · exact hadds.counts (hrest.isOpen hopen)
    · exact hrest.counts hopen s hs hs'
  followed := by
    rintro hopen events ⟨e, rest, rfl, hrun, rfl⟩
    exact ⟨fun _ hstatus => hadds.followed (hrest.isOpen hopen) hstatus rest hrun,
      hrest.followed hopen rest hrun⟩

theorem Nested.mono {runs runs' : List StoreEvent → Prop} (h : Nested v n tables tables' stores runs)
    (hruns : ∀ events, runs' events → runs events) : Nested v n tables tables' stores runs' :=
  { h with followed := fun hopen events hrun => h.followed hopen events (hruns events hrun) }

theorem Nested.loop {runs : List StoreEvent → Prop} (h : Nested v n tables tables' stores runs) :
    Nested v n tables tables' stores
      (fun events => ∃ rounds : List (List StoreEvent), (∀ round ∈ rounds, runs round) ∧
        events = rounds.flatten) :=
  { h with
    followed := by
      rintro hopen events ⟨rounds, hrounds, rfl⟩
      exact Followed.flatten fun round hround => h.followed hopen round (hrounds round hround) }

/-- The runs of a list, wherever it stands in the text. -/
def HasRun (code : List Instruction) (events : List StoreEvent) : Prop :=
  ∃ site, ListRuns code site events

def HasInstructionRun (instruction : Instruction) (events : List StoreEvent) : Prop :=
  ∃ site, instruction.Runs site events

theorem HasRun.cons {instruction : Instruction} {instructions : List Instruction}
    {events : List StoreEvent} (h : HasRun (instruction :: instructions) events) :
    ∃ head tail, HasInstructionRun instruction head ∧ HasRun instructions tail ∧
      events = head ++ tail := by
  obtain ⟨site, head, tail, hhead, htail, rfl⟩ := h
  exact ⟨head, tail, ⟨site, hhead⟩, ⟨_, htail⟩, rfl⟩

theorem HasInstructionRun.eq_singleton {instruction : Instruction} {events : List StoreEvent}
    (h : HasInstructionRun instruction events) (hdirect : instruction.IsDirect)
    (hstore : instruction.inputStore = some store) : ∃ e : StoreEvent, e.store = store ∧ events = [e] := by
  obtain ⟨site, h⟩ := h
  obtain ⟨e, hexec, rfl⟩ := (hdirect.runs_some hstore).mp h
  exact ⟨e, hexec.store_eq, rfl⟩

mutual

/-- Every instruction but a store to the component itself. -/
theorem Visits.nested : ∀ (instruction : Instruction) {instruction' : Instruction}
    {insideLoop : Bool} {tables tables' : Tables} {level level' : Finset String},
    Visits insideLoop tables level instruction instruction' tables' level' →
    (∀ store ∈ instruction.inputStores, Fits v n store) →
    (∀ store, instruction.inputStore = some store → ¬IsKnown v store) →
    Nested v n tables tables' instruction'.inputStores (HasInstructionRun instruction') ∧
      (cmpKey v ∈ level' ↔ cmpKey v ∈ level)
  | .branch _ ifBranch elseBranch, _, _, _, _, _, _, .branch _ hif helse, hfits, _ => by
    have h₁ := (nested_of_visitFromEnd ifBranch hif
      fun s hs => hfits s (List.mem_append_left _ hs)).1
    have h₂ := (nested_of_visitFromEnd elseBranch helse
      fun s hs => hfits s (List.mem_append_right _ hs)).1
    refine ⟨h₁.trans h₂ (fun s hs => List.mem_append.mp hs) ?_, Iff.rfl⟩
    rintro hrun₁ hrun₂ events ⟨site, hrun | hrun⟩
    · exact hrun₁ events ⟨site, hrun⟩
    · exact hrun₂ events ⟨_, hrun⟩
  | .loop _ body, _, _, _, _, _, _, .loop _ hbody, hfits, _ => by
    have h := (nested_of_visitFromEnd body hbody hfits).1
    refine ⟨h.loop.mono ?_, Iff.rfl⟩
    rintro events ⟨site, rounds, hrounds, rfl⟩
    exact ⟨rounds, fun round hround => ⟨site, hrounds round hround⟩, rfl⟩
  | instruction, instruction', _, tables, _, _, _, .skip hdirect hdirect' hstore hstore', _, _ => by
    rw [hdirect'.inputStores_eq, hstore']
    refine ⟨(Nested.refl v n tables).mono ?_, Iff.rfl⟩
    rintro events ⟨site, hrun⟩
    exact (hdirect'.runs_none hstore').mp hrun
  | instruction, instruction', _, _, _, _, _, .mark hdirect hdirect' hstore hstore' hmarks, hfits,
      hknown => by
    rw [hdirect.inputStores_eq, hstore] at hfits
    have hfits := hfits _ (List.mem_singleton.mpr rfl)
    have hknown := hknown _ hstore
    rw [hdirect'.inputStores_eq, hstore']
    refine ⟨(hmarks.nested hfits hknown).mono ?_, (hmarks.of_not_isKnown hfits hknown).2⟩
    exact fun events hrun => hrun.eq_singleton hdirect' hstore'

theorem nested_of_visitFromEnd : ∀ (code : List Instruction)
    {code' : List Instruction} {tables tables' : Tables} {level' : Finset String},
    visitFromEnd true tables code = some (code', tables', level') →
    (∀ store ∈ listInputStores code, Fits v n store) →
    Nested v n tables tables' (listInputStores code') (HasRun code') ∧
      Assigned v level' (HasRun code')
  | [], code', tables, tables', level', h, _ => by
    simp only [visitFromEnd, Option.some.injEq, Prod.mk.injEq] at h
    obtain ⟨rfl, rfl, rfl⟩ := h
    refine ⟨(Nested.refl v n tables).mono ?_, fun hmem => by simp at hmem⟩
    rintro events ⟨site, hrun⟩
    exact hrun
  | instruction :: instructions, code', tables, tables', level', h, hfits => by
    obtain ⟨instruction', instructions', tables₁, level₁, rfl, hrest, hfirst⟩ := visitFromEnd_cons h
    obtain ⟨hnested, hassigned⟩ := nested_of_visitFromEnd instructions hrest
      fun s hs => hfits s (List.mem_append_right _ hs)
    have hvisits := visits_of_eq hfirst
    by_cases hdirect : ∃ store, instruction.inputStore = some store ∧ IsKnown v store
    · obtain ⟨store, hstore, hknown⟩ := hdirect
      cases hvisits with
      | branch => simp [Instruction.inputStore] at hstore
      | loop => simp [Instruction.inputStore] at hstore
      | skip _ _ hnone => simp [hnone] at hstore
      | @mark _ _ store₀ store' _ _ hdirect hdirect' hstore₀ hstore' hmarks =>
        obtain rfl := Option.some.inj (hstore.symm.trans hstore₀)
        have hknown' := hmarks.isKnown_iff.mpr hknown
        have hcons := hnested.cons (hmarks.adds hknown hassigned) hknown'
        have hruns : ∀ events, HasRun (instruction' :: instructions') events →
            ∃ (e : StoreEvent) (rest : _), e.store = store' ∧ HasRun instructions' rest ∧
              events = e :: rest := by
          intro events hrun
          obtain ⟨head, tail, hhead, htail, rfl⟩ := hrun.cons
          obtain ⟨e, he, rfl⟩ := hhead.eq_singleton hdirect' hstore'
          exact ⟨e, tail, he, htail, rfl⟩
        rw [listInputStores, hdirect'.inputStores_eq, hstore']
        refine ⟨hcons.mono hruns, fun _ events hrun => ?_⟩
        obtain ⟨e, rest, rfl, -, rfl⟩ := hruns events hrun
        exact ⟨e, List.mem_cons_self .., hknown'⟩
    · have hother : ∀ store, instruction.inputStore = some store → ¬IsKnown v store :=
        fun store hstore hknown => hdirect ⟨store, hstore, hknown⟩
      obtain ⟨hinstruction, hlevel⟩ := Visits.nested instruction hvisits
        (fun s hs => hfits s (List.mem_append_left _ hs)) hother
      refine ⟨hnested.trans hinstruction (fun s hs => (List.mem_append.mp hs).symm) ?_, ?_⟩
      · rintro htails hheads events hrun
        obtain ⟨head, tail, hhead, htail, rfl⟩ := hrun.cons
        exact (hheads head hhead).append (htails tail htail)
      · intro hmem events hrun
        obtain ⟨head, tail, hhead, htail, rfl⟩ := hrun.cons
        obtain ⟨e, he, hknown⟩ := hassigned (hlevel.mp hmem) tail htail
        exact ⟨e, List.mem_append_right _ he, hknown⟩

end

end Circom.IrProcessing
