import Circom.IrProcessing.Proofs.AnonymousStores
import Circom.IrProcessing.Proofs.TopLevel
import Mathlib.Data.List.Range
import Mathlib.Algebra.GroupWithZero.Nat

/-!
# Components are run once

A component is run at the store that completes its inputs, if a store that is not marked as empty writes
something, and if the stores to an anonymous component are executed in the order of the text.
-/

namespace Circom.IrProcessing

open Circom.IntermediateRepresentation
open Circom.Lib (HashMap)

variable {stores : List InputStore} {code : List Instruction} {after before events : List StoreEvent}
variable {event last : StoreEvent} {address v : ℕ} {anonymous : ℕ → Bool} {names : ℕ → String}
variable {inputs : ℕ → ℕ}

/-! ## The counter -/

/-- The number of cells that are written. -/
def written (events : List StoreEvent) : ℕ := (events.map fun e => e.cells.length).sum

/-- The number of cells that are taken from the counter. -/
def taken (events : List StoreEvent) : ℕ :=
  (events.map fun e => if e.store.needsDecrement then e.cells.length else 0).sum

@[simp] theorem written_nil : written [] = 0 := rfl

@[simp] theorem written_cons (event : StoreEvent) (events : List StoreEvent) :
    written (event :: events) = event.cells.length + written events := rfl

theorem written_append (events₁ events₂ : List StoreEvent) :
    written (events₁ ++ events₂) = written events₁ + written events₂ := by
  simp [written]

@[simp] theorem taken_nil : taken [] = 0 := rfl

@[simp] theorem taken_cons (event : StoreEvent) (events : List StoreEvent) :
    taken (event :: events) =
      (if event.store.needsDecrement then event.cells.length else 0) + taken events := rfl

theorem taken_eq_written
    (h : ∀ e ∈ events, e.cells ≠ [] → e.store.needsDecrement = true) : taken events = written events := by
  induction events with
  | nil => rfl
  | cons event events ih =>
    have hevents := ih fun e he => h e (List.mem_cons_of_mem _ he)
    have hevent := h event (List.mem_cons_self ..)
    rw [taken_cons, written_cons, hevents]
    by_cases hcells : event.cells = []
    · simp [hcells]
    · simp [hevent hcells]

theorem written_eq_zero (h : ∀ e ∈ events, e.cells = []) : written events = 0 := by
  induction events with
  | nil => rfl
  | cons event events ih =>
    rw [written_cons, h event (List.mem_cons_self ..), ih fun e he => h e (List.mem_cons_of_mem _ he)]
    rfl

theorem runsComponent_append (counter : ℤ) (events₁ events₂ : List StoreEvent) :
    runsComponent counter (events₁ ++ events₂) =
      runsComponent counter events₁ ++ runsComponent (counter - taken events₁) events₂ := by
  induction events₁ generalizing counter with
  | nil => simp [runsComponent]
  | cons event events ih =>
    simp only [List.cons_append, runsComponent, taken_cons]
    rw [ih]
    congr 3
    split_ifs <;> push_cast <;> omega

/-- No component is run as long as inputs are missing. -/
theorem runsComponent_eq_replicate {counter : ℤ} (hlast : ∀ e ∈ events, e.store.status ≠ .last)
    (hcounter : (written events : ℤ) < counter) :
    runsComponent counter events = List.replicate events.length false := by
  induction events generalizing counter with
  | nil => rfl
  | cons event events ih =>
    rw [written_cons] at hcounter
    have hevent := hlast event (List.mem_cons_self ..)
    have hpos : (written events : ℤ) <
        if event.store.needsDecrement then counter - event.cells.length else counter := by
      split_ifs <;> push_cast at hcounter <;> omega
    have hne : (if event.store.needsDecrement then counter - event.cells.length else counter) ≠ 0 := by
      omega
    rw [runsComponent, ih (fun e he => hlast e (List.mem_cons_of_mem _ he)) hpos, List.length_cons,
      List.replicate_succ]
    simp [hevent, hne]

/-- The stores that are marked as empty never run a component. -/
theorem runsComponent_sizeZero (counter : ℤ) (h : ∀ e ∈ events, e.store.status = .sizeZero) :
    runsComponent counter events = List.replicate events.length false := by
  induction events generalizing counter with
  | nil => rfl
  | cons event events ih =>
    rw [runsComponent, ih _ fun e he => h e (List.mem_cons_of_mem _ he), List.length_cons,
      List.replicate_succ]
    simp [h event (List.mem_cons_self ..)]

/-- The store that completes the inputs of a component, among the stores to it. -/
structure Completes (inputs : ℕ) (before : List StoreEvent) (last : StoreEvent)
    (after : List StoreEvent) : Prop where
  nonempty : last.cells ≠ []
  rest : ∀ e ∈ after, e.cells = [] ∧ e.store.status = .sizeZero
  written_eq : written before + last.cells.length = inputs
  not_last : ∀ e ∈ before, e.store.status ≠ .last
  runs : last.store.status = .last ∨
    last.store.status = .unknown ∧ ∀ e ∈ before ++ [last], e.cells ≠ [] → e.store.needsDecrement = true

theorem Completes.runsComponent_eq {inputs : ℕ} (h : Completes inputs before last after) :
    runsComponent inputs (before ++ last :: after) =
      List.replicate before.length false ++ true :: List.replicate after.length false := by
  have hlength : 0 < last.cells.length := List.length_pos_of_ne_nil h.nonempty
  have hwritten := h.written_eq
  have hbefore : (written before : ℤ) < inputs := by omega
  rw [runsComponent_append, runsComponent_eq_replicate h.not_last hbefore, runsComponent,
    runsComponent_sizeZero _ fun e he => (h.rest e he).2]
  congr 2
  rcases h.runs with hlast | ⟨hunknown, hcounts⟩
  · simp [hlast]
  · have htaken : taken before = written before :=
      taken_eq_written fun e he => hcounts e (List.mem_append_left _ he)
    have hdecrement := hcounts last (List.mem_append_right _ (List.mem_singleton.mpr rfl)) h.nonempty
    have hzero : (inputs : ℤ) - written before - last.cells.length = 0 := by omega
    simp [hunknown, hdecrement, htaken, hzero]

/-! ## Runs -/

/-- The stores to the component at an address. -/
def eventsAt (address : ℕ) (events : List StoreEvent) : List StoreEvent :=
  events.filter fun e => e.address = address

/-- The names of the components at the addresses of a body, and which of them are anonymous. -/
structure Names (code : List Instruction) (names : ℕ → String) (anonymous : ℕ → Bool) : Prop where
  known : ∀ store ∈ listInputStores code, ∀ parseAs v, store.cmpAddress = .value parseAs v →
    store.cmpName = names v ∧ store.isAnonymous = anonymous v
  key : ∀ store ∈ listInputStores code, store.isAnonymous = true → ∀ v, store.cmpName ≠ cmpKey v

/-- A run that writes each input of every component once. -/
structure InputRun (code : List Instruction) (names : ℕ → String) (anonymous : ℕ → Bool)
    (inputs : ℕ → ℕ) (events : List StoreEvent) : Prop where
  /-- The stores are those of a run of the code. -/
  runs : ListRuns code 0 events
  name_eq : ∀ e ∈ events, e.store.cmpName = names e.address
  isAnonymous_eq : ∀ e ∈ events, e.store.isAnonymous = anonymous e.address
  /-- Each input of a component is written once. -/
  once : ∀ address, ((eventsAt address events).flatMap fun e => e.cells).Perm (List.range (inputs address))

/-- The places of the stores of the anonymous component `n`. -/
def sitesOf (n : String) (code : List Instruction) : List ℕ :=
  ((listInputStores code).zipIdx.filter fun e => IsAnonymousOf n e.1).map Prod.snd

/-- Every store that is not marked as empty writes something, and each anonymous component gets its inputs
by one execution of every store to it, in the order of the text, without a choice between two of them. -/
structure Regular (code : List Instruction) (names : ℕ → String) (anonymous : ℕ → Bool)
    (events : List StoreEvent) : Prop where
  /-- Only a store that is marked writes nothing. -/
  nonempty : ∀ e ∈ events, alwaysEmpty e.store.context = false → e.cells ≠ []
  /-- No conditional chooses between two stores to an anonymous component. -/
  not_split : ∀ address, anonymous address = true → ListNotSplit (names address) code
  /-- The stores to an anonymous component are executed once each, in the order of the text. -/
  ordered : ∀ address, anonymous address = true → (∃ e ∈ eventsAt address events, e.cells ≠ []) →
    ((eventsAt address events).filter fun e => e.cells ≠ []).map StoreEvent.site =
      sitesOf (names address) code

/-- Every component with an input is run once, at the store that completes its inputs. -/
def RunsOnce (inputs : ℕ → ℕ) (events : List StoreEvent) : Prop :=
  ∀ address, (∃ e ∈ eventsAt address events, e.cells ≠ []) →
    ∃ before last after, eventsAt address events = before ++ last :: after ∧
      last.cells ≠ [] ∧ (∀ e ∈ after, e.cells = []) ∧
      last.store.status ≠ .noLast ∧ last.store.status ≠ .sizeZero ∧
      runsComponent (inputs address) (eventsAt address events) =
        List.replicate before.length false ++ true :: List.replicate after.length false

theorem Completes.status_ne {inputs : ℕ} (h : Completes inputs before last after) :
    last.store.status ≠ .noLast ∧ last.store.status ≠ .sizeZero := by
  rcases h.runs with hlast | ⟨hunknown, -⟩
  · simp [hlast]
  · simp [hunknown]

theorem written_eq_length (events : List StoreEvent) :
    written events = (events.flatMap fun e => e.cells).length := by
  rw [List.length_flatMap, written]

/-- The cells that are written up to the last store are all inputs. -/
theorem InputRun.written_eq (h : InputRun code names anonymous inputs events)
    (heq : eventsAt address events = before ++ last :: after) (hafter : ∀ e ∈ after, e.cells = []) :
    written before + last.cells.length = inputs address := by
  have hlength := (h.once address).length_eq
  rw [← written_eq_length, List.length_range, heq, written_append, written_cons,
    written_eq_zero hafter] at hlength
  omega

theorem exists_last {α : Type*} (p : α → Prop) {l : List α} (h : ∃ a ∈ l, p a) :
    ∃ before last after, l = before ++ last :: after ∧ p last ∧ ∀ a ∈ after, ¬p a := by
  induction l with
  | nil => simp at h
  | cons a l ih =>
    by_cases hl : ∃ b ∈ l, p b
    · obtain ⟨before, last, after, rfl, hlast, hafter⟩ := ih hl
      exact ⟨a :: before, last, after, rfl, hlast, hafter⟩
    · obtain ⟨b, hb, hpb⟩ := h
      rcases List.mem_cons.mp hb with rfl | hb
      · exact ⟨[], b, l, rfl, hpb, fun c hc hpc => hl ⟨c, hc, hpc⟩⟩
      · exact absurd ⟨b, hb, hpb⟩ hl

/-- A store that is always empty writes nothing. -/
theorem cells_eq_nil_of_alwaysEmpty {site : ℕ} {store : InputStore} (h : event.Executes site store)
    (hempty : alwaysEmpty store.context = true) : event.cells = [] := by
  obtain ⟨size, hsize, hwrites⟩ := h.writes
  cases hcontext : store.context with
  | multiple values => simp [hcontext, alwaysEmpty] at hempty
  | single value =>
    rw [hcontext] at hempty hsize
    have hvalue : value = 0 := by simpa [alwaysEmpty] using hempty
    obtain rfl : size = 0 := Eq.trans hsize hvalue
    cases hsrc : store.srcContext with
    | none => simpa [hsrc] using hwrites
    | some srcContext =>
      rw [hsrc] at hwrites
      obtain ⟨srcSize, -, hmin⟩ := hwrites
      simpa using hmin

theorem Followed.exists_of_eq (h : Followed v (before ++ last :: after)) (hknown : IsKnown v last.store)
    (hstatus : last.store.status = .noLast) : ∃ e ∈ after, IsKnown v e.store := by
  induction before with
  | nil => exact h.1 hknown hstatus
  | cons event events ih => exact ih h.2

/-- What is known about every event of a regular run. -/
structure RegularEvent (names : ℕ → String) (anonymous : ℕ → Bool) (stores : List InputStore)
    (event : StoreEvent) : Prop where
  store_mem : event.store ∈ stores
  empty : event.cells = [] → event.store.status = .sizeZero
  nonempty : alwaysEmpty event.store.context = false ↔ event.cells ≠ []
  name_eq : event.store.cmpName = names event.address
  isAnonymous_eq : event.store.isAnonymous = anonymous event.address
  address_eq : ∀ parseAs v, event.store.cmpAddress = .value parseAs v → event.address = v

theorem RegularEvent.address_of_isKnown
    (h : RegularEvent names anonymous stores event)
    (hknown : IsKnown v event.store) : event.address = v ∧ event.cells ≠ [] := by
  obtain ⟨hsize, -, parseAs, haddress⟩ := hknown
  exact ⟨h.address_eq parseAs v haddress, h.nonempty.mp hsize⟩

/-- A store to a named component has a known address, or one that is computed. -/
theorem RegularEvent.known_or_unknown (h : RegularEvent names anonymous stores event) (hcells : event.cells ≠ [])
    (hanonymous : anonymous event.address = false) :
    IsKnown event.address event.store ∨ IsUnknownOf (names event.address) event.store := by
  have hsize := h.nonempty.mpr hcells
  have ha : event.store.isAnonymous = false := h.isAnonymous_eq.trans hanonymous
  by_cases hknown : ∃ parseAs v, event.store.cmpAddress = .value parseAs v
  · obtain ⟨parseAs, v, haddress⟩ := hknown
    refine Or.inl ⟨hsize, ha, parseAs, ?_⟩
    rw [haddress, h.address_eq parseAs v haddress]
  · exact Or.inr ⟨hsize, ha, h.name_eq, fun parseAs v haddress => hknown ⟨parseAs, v, haddress⟩⟩

theorem mem_eventsAt {e : StoreEvent} : e ∈ eventsAt address events ↔ e ∈ events ∧ e.address = address := by
  simp [eventsAt]

theorem eventsAt_eq (h : last.address = address) : eventsAt address (before ++ last :: after) =
      eventsAt address before ++ last :: eventsAt address after := by
  simp [eventsAt, h]

section

variable {names : ℕ → String} {anonymous : ℕ → Bool} {stores : List InputStore}
  {events : List StoreEvent} {v : ℕ} {tables : Tables} {runs : List StoreEvent → Prop}

/-- All stores count. -/
theorem Counted.exists_completes (h : Counted v stores runs) (hrun : runs events)
    (hunknown : UnknownCount (names v) tables stores)
    (hevents : ∀ e ∈ events, RegularEvent names anonymous stores e) (hv : anonymous v = false)
    (hexists : ∃ e ∈ eventsAt v events, e.cells ≠ []) :
    ∃ before last after, eventsAt v events = before ++ last :: after ∧ (∀ e ∈ after, e.cells = []) ∧
      ∀ inputs, written before + last.cells.length = inputs → Completes inputs before last after := by
  have hcounts : ∀ e ∈ events, e.address = v → e.cells ≠ [] → Counts e.store := by
    rintro e he rfl hcells
    have hevent := hevents e he
    rcases hevent.known_or_unknown hcells hv with hknown | hunknown'
    · exact h.counts e.store hevent.store_mem hknown
    · obtain ⟨hstatus, hdecrement, -⟩ := hunknown e.store hevent.store_mem hunknown'
      exact ⟨hdecrement, Or.inl hstatus⟩
  obtain ⟨e₀, he₀, hcells₀⟩ := hexists
  obtain ⟨before, last, after, rfl, ⟨hlast, hcells⟩, hafter⟩ :=
    exists_last (fun e => e.address = v ∧ e.cells ≠ [])
      ⟨e₀, (mem_eventsAt.mp he₀).1, (mem_eventsAt.mp he₀).2, hcells₀⟩
  have hrest : ∀ e ∈ eventsAt v after, e.cells = [] := by
    intro e he
    obtain ⟨he, haddress⟩ := mem_eventsAt.mp he
    by_contra hne
    exact hafter e he ⟨haddress, hne⟩
  have hmem : ∀ e ∈ before ++ [last], e ∈ before ++ last :: after := by
    intro e he
    rcases List.mem_append.mp he with he | he
    · exact List.mem_append_left _ he
    · rw [List.mem_singleton.mp he]
      exact List.mem_append_right _ (List.mem_cons_self ..)
  have hlast_mem := hmem last (List.mem_append_right _ (List.mem_singleton.mpr rfl))
  refine ⟨_, last, _, eventsAt_eq hlast, hrest, fun inputs hinputs => ⟨hcells, ?_, hinputs, ?_, ?_⟩⟩
  · intro e he
    have hempty := hrest e he
    have he := List.mem_append_right before (List.mem_cons_of_mem last (mem_eventsAt.mp he).1)
    exact ⟨hempty, (hevents e he).empty hempty⟩
  · intro e he
    obtain ⟨he, haddress⟩ := mem_eventsAt.mp he
    have he := hmem e (List.mem_append_left _ he)
    by_cases hempty : e.cells = []
    · simp [(hevents e he).empty hempty]
    · rcases (hcounts e he haddress hempty).2 with hstatus | hstatus <;> simp [hstatus]
  · refine Or.inr ⟨?_, ?_⟩
    · -- a store that does not run the component is followed by another one
      rcases (hcounts last hlast_mem hlast hcells).2 with hstatus | hstatus
      · exact hstatus
      have hevent := hevents last hlast_mem
      obtain rfl := hlast
      rcases hevent.known_or_unknown hcells hv with hknown | hunknown'
      · obtain ⟨e, he, hknown'⟩ := (h.followed _ hrun).exists_of_eq hknown hstatus
        have he' := List.mem_append_right before (List.mem_cons_of_mem last he)
        exact absurd ((hevents e he').address_of_isKnown hknown') (hafter e he)
      · exact (hunknown last.store hevent.store_mem hunknown').1
    · intro e he hne
      rcases List.mem_append.mp he with he | he
      · obtain ⟨he, haddress⟩ := mem_eventsAt.mp he
        exact (hcounts e (hmem e (List.mem_append_left _ he)) haddress hne).1
      · obtain rfl := List.mem_singleton.mp he
        exact (hcounts e hlast_mem hlast hcells).1

/-- The last store runs the component. -/
theorem EndsWithLast.exists_completes (h : EndsWithLast v (names v) events)
    (hunknown : UnknownCount (names v) tables stores)
    (hevents : ∀ e ∈ events, RegularEvent names anonymous stores e) (hv : anonymous v = false) :
    ∃ before last after, eventsAt v events = before ++ last :: after ∧ (∀ e ∈ after, e.cells = []) ∧
      ∀ inputs, written before + last.cells.length = inputs → Completes inputs before last after := by
  obtain ⟨before, last, after, rfl, hknown, hstatus, hbefore, hafter⟩ := h
  have hlast_mem : last ∈ before ++ last :: after := List.mem_append_right _ (List.mem_cons_self ..)
  obtain ⟨hlast, hcells⟩ := (hevents last hlast_mem).address_of_isKnown hknown
  have hrest : ∀ e ∈ eventsAt v after, e.cells = [] := by
    intro e hmem
    obtain ⟨he, rfl⟩ := mem_eventsAt.mp hmem
    have he' := List.mem_append_right before (List.mem_cons_of_mem last he)
    by_contra hne
    rcases (hevents e he').known_or_unknown hne hv with hknown | hunknown'
    · exact (hafter e he).1 hknown
    · exact (hafter e he).2 hunknown'
  refine ⟨_, last, _, eventsAt_eq hlast, hrest,
    fun inputs hinputs => ⟨hcells, ?_, hinputs, ?_, Or.inl hstatus⟩⟩
  · intro e he
    have hempty := hrest e he
    have he := List.mem_append_right before (List.mem_cons_of_mem last (mem_eventsAt.mp he).1)
    exact ⟨hempty, (hevents e he).empty hempty⟩
  · intro e hmem
    obtain ⟨he, rfl⟩ := mem_eventsAt.mp hmem
    have hevent := hevents e (List.mem_append_left _ he)
    by_cases hempty : e.cells = []
    · simp [hevent.empty hempty]
    · rcases hevent.known_or_unknown hempty hv with hknown | hunknown'
      · simp [hbefore e he hknown]
      · simp [(hunknown e.store hevent.store_mem hunknown').1]

end

/-! ## Anonymous components -/

/-- The stores at the places of the anonymous component are its stores. -/
theorem map_getElem?_sitesOf (n : String) (code : List Instruction) :
    (sitesOf n code).map (fun site => (listInputStores code)[site]?) =
      (anonymousStores n (listInputStores code)).map some := by
  have hzip : ∀ e ∈ (listInputStores code).zipIdx.filter (fun e => decide (IsAnonymousOf n e.1)),
      (listInputStores code)[e.2]? = some e.1 := fun e he =>
    List.mem_zipIdx_iff_getElem?.mp (List.mem_filter.mp he).1
  have hfst : (listInputStores code).zipIdx.map Prod.fst = listInputStores code :=
    List.zipIdx_map_fst ..
  rw [sitesOf, List.map_map, anonymousStores]
  conv_rhs => rw [← hfst, List.filter_map, List.map_map]
  exact List.map_congr_left fun e he => hzip e he

theorem forall₂_zipIdx {stores' : List InputStore} (h : List.Forall₂ Marked stores stores') (n : String) (k : ℕ) :
    ((stores'.zipIdx k).filter fun e => decide (IsAnonymousOf n e.1)).map Prod.snd =
      ((stores.zipIdx k).filter fun e => decide (IsAnonymousOf n e.1)).map Prod.snd := by
  induction h generalizing k with
  | nil => rfl
  | @cons store store' _ _ hmarked _ ih =>
    rw [List.zipIdx_cons, List.zipIdx_cons]
    by_cases hanonymous : IsAnonymousOf n store
    · have hanonymous' := hmarked.isAnonymousOf_iff.mpr hanonymous
      rw [List.filter_cons_of_pos (by simpa using hanonymous'),
        List.filter_cons_of_pos (by simpa using hanonymous), List.map_cons, List.map_cons, ih]
    · have hanonymous' := mt hmarked.isAnonymousOf_iff.mp hanonymous
      rw [List.filter_cons_of_neg (by simpa using hanonymous'),
        List.filter_cons_of_neg (by simpa using hanonymous), ih]

section

variable {names : ℕ → String} {anonymous : ℕ → Bool} {stores : List InputStore}
  {events : List StoreEvent} {v : ℕ} {tables : Tables}

/-- The last of the stores in the text runs the anonymous component. -/
theorem Orders.exists_completes {n : String} (h : Orders n {} tables stores)
    (hevents : ∀ e ∈ events, RegularEvent names anonymous stores e)
    (hstores : ((eventsAt v events).filter fun e => e.cells ≠ []).map StoreEvent.store =
      anonymousStores n stores)
    (hexists : ∃ e ∈ eventsAt v events, e.cells ≠ []) :
    ∃ before last after, eventsAt v events = before ++ last :: after ∧ (∀ e ∈ after, e.cells = []) ∧
      ∀ inputs, written before + last.cells.length = inputs → Completes inputs before last after := by
  obtain ⟨before, last, after, heq, hcells, hafter⟩ := exists_last (fun e : StoreEvent => e.cells ≠ []) hexists
  have hrest : ∀ e ∈ after, e.cells = [] := fun e he => not_not.mp (hafter e he)
  have hmem : ∀ e ∈ before ++ last :: after, RegularEvent names anonymous stores e := by
    intro e he
    rw [← heq] at he
    exact hevents e (mem_eventsAt.mp he).1
  have hfilter : (before ++ last :: after).filter (fun e => decide (e.cells ≠ [])) =
      before.filter (fun e => decide (e.cells ≠ [])) ++ [last] := by
    have hnil : after.filter (fun e => decide (e.cells ≠ [])) = [] :=
      List.filter_eq_nil_iff.mpr fun e he => by simpa using hrest e he
    rw [List.filter_append, List.filter_cons_of_pos (by simpa using hcells), hnil]
  rw [heq, hfilter, List.map_append, List.map_singleton] at hstores
  cases h with
  | absent _ _ hnil =>
    rw [hnil] at hstores
    simp at hstores
  | last _ _ hordered =>
    obtain ⟨init, final, hsplit, hfinal, hinit⟩ := hordered
    rw [hsplit] at hstores
    obtain ⟨rfl, hlast⟩ := List.append_inj' hstores rfl
    obtain rfl : last.store = final := by simpa using hlast
    refine ⟨before, last, after, heq, hrest,
      fun inputs hinputs => ⟨hcells, ?_, hinputs, ?_, Or.inl hfinal⟩⟩
    · intro e he
      have hevent := hmem e (List.mem_append_right _ (List.mem_cons_of_mem _ he))
      exact ⟨hrest e he, hevent.empty (hrest e he)⟩
    · intro e he
      have hevent := hmem e (List.mem_append_left _ he)
      by_cases hempty : e.cells = []
      · simp [hevent.empty hempty]
      · have hstatus := hinit e.store
          (List.mem_map_of_mem (List.mem_filter.mpr ⟨he, by simpa using hempty⟩))
        simp [hstatus]
  | found h => exact absurd rfl h

end

/-! ## Bodies -/

theorem status_of_alwaysEmpty {stores' : List InputStore} (h : List.Forall₂ Marked stores stores') {store' : InputStore}
    (hmem : store' ∈ stores') (hempty : alwaysEmpty store'.context = true) : store'.status = .sizeZero := by
  obtain ⟨store, -, hmarked⟩ := exists_marked h hmem
  obtain ⟨status, needsDecrement, heq⟩ := hmarked.eq_withStatus
  refine hmarked.empty ?_
  rwa [heq] at hempty

theorem regularEvent_of_run {code' : List Instruction}
    (hmarked : List.Forall₂ Marked (listInputStores code) (listInputStores code'))
    (hrun : InputRun code' names anonymous inputs events) (hregular : Regular code names anonymous events)
    {e : StoreEvent} (he : e ∈ events) : RegularEvent names anonymous (listInputStores code') e := by
  have hof := ListRuns.isOf code' hrun.runs e he
  have hmem := hof.store_mem
  obtain ⟨k, -, hexec⟩ := hof
  have hstatus : e.cells = [] → alwaysEmpty e.store.context = true := by
    intro hcells
    by_contra hsize
    exact hregular.nonempty e he (by simpa using hsize) hcells
  refine ⟨hmem, fun hcells => status_of_alwaysEmpty hmarked hmem (hstatus hcells),
    ⟨hregular.nonempty e he, fun hcells => ?_⟩, hrun.name_eq e he, hrun.isAnonymous_eq e he,
    hexec.address_eq⟩
  by_contra hsize
  exact hcells (cells_eq_nil_of_alwaysEmpty hexec (by simpa using hsize))

/-- The stores to an anonymous component are executed in the order of the text. -/
theorem map_store_eventsAt {code' : List Instruction} {n : String}
    (hmarked : List.Forall₂ Marked (listInputStores code) (listInputStores code'))
    (hrun : InputRun code' names anonymous inputs events)
    (hsites : ((eventsAt address events).filter fun e => e.cells ≠ []).map StoreEvent.site = sitesOf n code) :
    ((eventsAt address events).filter fun e => e.cells ≠ []).map StoreEvent.store =
      anonymousStores n (listInputStores code') := by
  have hcode : sitesOf n code = sitesOf n code' := (forall₂_zipIdx hmarked n 0).symm
  have hstores := map_getElem?_sitesOf n code'
  rw [← hcode, ← hsites, List.map_map] at hstores
  refine List.map_injective_iff.mpr (Option.some_injective _) ?_
  rw [← hstores, List.map_map]
  refine List.map_congr_left fun e he => ?_
  have he' := (mem_eventsAt.mp (List.mem_filter.mp he).1).1
  obtain ⟨k, hk, hexec⟩ := ListRuns.isOf code' hrun.runs e he'
  have hsite : e.site = k := hexec.site_eq.trans (Nat.zero_add k)
  simp [hsite, hk]

theorem Names.fits (h : Names code names anonymous) (v : ℕ) :
    ∀ store ∈ listInputStores code, Fits v (names v) store := fun store hstore =>
  ⟨fun parseAs _ haddress => (h.known store hstore parseAs v haddress).1,
    fun hanonymous => h.key store hstore hanonymous v⟩

/-- In every regular run each component with an input is run once, at the store that completes its inputs. -/
theorem buildInputsInfo_runsOnce (code : List Instruction) (names : ℕ → String) (anonymous : ℕ → Bool)
    (inputs : ℕ → ℕ) (hnames : Names code names anonymous) :
    ∃ code', buildInputsInfo code = some code' ∧
      ∀ events, InputRun code' names anonymous inputs events → Regular code names anonymous events →
        RunsOnce inputs events := by
  have hempty : OnlyKnown {} := fun key info h => by simp at h
  obtain ⟨code', tables, level, hvisit, -⟩ := hempty.visitFromEnd code false hnames.key
  have hresult : buildInputsInfo code = some code' := by
    simp [buildInputsInfo, visitList, hvisit]
  refine ⟨code', hresult, fun events hrun hregular address hexists => ?_⟩
  have hmarked := marked_of_visitFromEnd code hvisit
  have hevents : ∀ e ∈ events, RegularEvent names anonymous (listInputStores code') e :=
    fun e he => regularEvent_of_run hmarked hrun hregular he
  have hcompletes : ∃ before last after, eventsAt address events = before ++ last :: after ∧
      (∀ e ∈ after, e.cells = []) ∧
      ∀ inputs, written before + last.cells.length = inputs → Completes inputs before last after := by
    cases hanonymous : anonymous address with
    | false =>
      obtain ⟨-, hstate, hunknown⟩ := topLevel_of_visitFromEnd code hvisit (hnames.fits address)
      have hhasRun : HasRun code' events := ⟨0, hrun.runs⟩
      cases hstate with
      | untouched _ hstores =>
        have hcounted : Counted address (listInputStores code') (HasRun code') :=
          ⟨fun store hstore hknown => absurd hknown (hstores store hstore), fun events' hrun' =>
            Followed.of_forall_not fun e he => hstores e.store (HasRun.fromText code' events' hrun' e he)⟩
        exact hcounted.exists_completes hhasRun hunknown hevents hanonymous hexists
      | counted _ hcounted =>
        exact hcounted.exists_completes hhasRun hunknown hevents hanonymous hexists
      | reached _ hcounted =>
        exact hcounted.exists_completes hhasRun hunknown hevents hanonymous hexists
      | last _ hlast => exact (hlast events hhasRun).exists_completes hunknown hevents hanonymous
    | true =>
      obtain ⟨e₀, he₀, hcells₀⟩ := hexists
      have hname : ∀ v, names address ≠ cmpKey v := by
        obtain ⟨hmem, rfl⟩ := mem_eventsAt.mp he₀
        have hevent := hevents e₀ hmem
        obtain ⟨store, hstore, hmarked⟩ := exists_marked hmarked hevent.store_mem
        obtain ⟨status, needsDecrement, heq⟩ := hmarked.eq_withStatus
        have ha : store.isAnonymous = true := by
          have h := hevent.isAnonymous_eq
          rwa [heq, hanonymous] at h
        have hn : store.cmpName = names e₀.address := by
          have h := hevent.name_eq
          rwa [heq] at h
        rw [← hn]
        exact hnames.key store hstore ha
      exact (orders_of_visitFromEnd hname code hvisit (hregular.not_split address hanonymous)).exists_completes
        hevents (map_store_eventsAt hmarked hrun (hregular.ordered address hanonymous ⟨e₀, he₀, hcells₀⟩))
        ⟨e₀, he₀, hcells₀⟩
  obtain ⟨before, last, after, heq, hafter, hcompletes⟩ := hcompletes
  have hdone := hcompletes (inputs address) (hrun.written_eq heq hafter)
  refine ⟨before, last, after, heq, hdone.nonempty, hafter, hdone.status_ne.1, hdone.status_ne.2, ?_⟩
  rw [heq]
  exact hdone.runsComponent_eq

/-- A store of one cell to the input of a component. -/
def storeInput (isAnonymous : Bool) (cmpName : String) (size : SizeOption) (cmpAddress : Instruction)
    (status : StatusInput) (needsDecrement : Bool) : Instruction :=
  .store size size (.subcmpSignal cmpAddress false (.input status needsDecrement) isAnonymous cmpName)
    (.indexed (.value .u32 0) none) (.value .bigInt 0)

/-- Only the component at the address `0` has inputs. -/
def inputsOf (k address : ℕ) : ℕ := if address = 0 then k else 0

theorem eventsAt_cells_perm {k : ℕ} (haddress : ∀ e ∈ events, e.address = 0)
    (hcells : (events.flatMap fun e => e.cells) = List.range k) (address : ℕ) :
    ((eventsAt address events).flatMap fun e => e.cells).Perm (List.range (inputsOf k address)) := by
  by_cases h : address = 0
  · have heq : eventsAt address events = events :=
      List.filter_eq_self.mpr fun e he => by simp [h, haddress e he]
    rw [heq, hcells, inputsOf, if_pos h]
  · have heq : eventsAt address events = [] :=
      List.filter_eq_nil_iff.mpr fun e he => by simpa [haddress e he] using Ne.symm h
    rw [heq, inputsOf, if_neg h]
    exact List.Perm.refl _

/-- A loop that stores the two inputs of a component. -/
def loopBody : List Instruction :=
  [.loop (.load .var (.indexed (.value .u32 0) none) (.single 1))
    [storeInput false "c" (.single 1) (.value .u32 0) .unknown true]]

def loopEvent (cell : ℕ) : StoreEvent :=
  ⟨0, ⟨.single 1, some (.single 1), .value .u32 0, .unknown, true, false, "c"⟩, 0, [cell]⟩

theorem runsOnce_loopBody : RunsOnce (inputsOf 2) [loopEvent 0, loopEvent 1] := by
  have hnames : Names loopBody (fun _ => "c") (fun _ => false) := by
    refine ⟨fun store hstore parseAs v _ => ?_, fun store hstore hanonymous => ?_⟩
    · obtain rfl := List.mem_singleton.mp hstore
      exact ⟨rfl, rfl⟩
    · obtain rfl := List.mem_singleton.mp hstore
      cases hanonymous
  obtain ⟨code', hcode, hruns⟩ :=
    buildInputsInfo_runsOnce loopBody (fun _ => "c") (fun _ => false) (inputsOf 2) hnames
  obtain rfl : loopBody = code' := Option.some.inj hcode
  have hexec : ∀ cell, (loopEvent cell).Executes 0 (loopEvent cell).store := fun cell =>
    ⟨rfl, rfl, fun _ _ heq => by cases heq; rfl, 1, rfl, 1, rfl, rfl⟩
  refine hruns _ ⟨?_, by simp [loopEvent], by simp [loopEvent],
    eventsAt_cells_perm (by simp [loopEvent]) rfl⟩ ⟨by simp [loopEvent], by simp, by simp⟩
  refine ⟨_, [], ⟨[[loopEvent 0], [loopEvent 1]], fun round hround => ?_, rfl⟩, rfl, rfl⟩
  obtain ⟨cell, rfl⟩ : ∃ cell, round = [loopEvent cell] := by
    rcases List.mem_cons.mp hround with rfl | hround
    · exact ⟨0, rfl⟩
    · exact ⟨1, List.mem_singleton.mp hround⟩
  exact ⟨_, [], ⟨loopEvent cell, hexec cell, rfl⟩, rfl, rfl⟩

/-- The input of the anonymous component in a round of a loop with `o[i] <== B()(a <== i ? x : y);`, which is assigned
on both sides of a branch. -/
def choiceBody (ifStatus elseStatus : StatusInput) (needsDecrement : Bool) : List Instruction :=
  [.branch (.load .var (.indexed (.value .u32 1) none) (.single 1))
    [storeInput true "B_3_40" (.single 1) (.value .u32 0) ifStatus needsDecrement]
    [storeInput true "B_3_40" (.single 1) (.value .u32 0) elseStatus needsDecrement]]

/-- The inputs of two components of an array: the second one is empty for the first component. -/
def emptyBody : List Instruction :=
  [.loop (.load .var (.indexed (.value .u32 1) none) (.single 1))
    [storeInput false "c" (.multiple [(0, 1), (1, 1)])
        (.load .var (.indexed (.value .u32 0) none) (.single 1)) .unknown true,
      storeInput false "c" (.multiple [(0, 0), (1, 2)])
        (.load .var (.indexed (.value .u32 0) none) (.single 1)) .unknown true]]

/-- The run of `choiceBody` that takes the else branch. -/
def elseEvent : StoreEvent :=
  ⟨1, ⟨.single 1, some (.single 1), .value .u32 0, .noLast, false, true, "B_3_40"⟩, 0, [0]⟩

/-- A store of a run of `emptyBody`. -/
def emptyEvent (site : ℕ) (values : List (ℕ × ℕ)) (address : ℕ) (cells : List ℕ) : StoreEvent :=
  ⟨site, ⟨.multiple values, some (.multiple values), .load .var (.indexed (.value .u32 0) none) (.single 1),
    .unknown, true, false, "c"⟩, address, cells⟩

/-- The two rounds of `emptyBody`. -/
def emptyEvents : List StoreEvent :=
  [emptyEvent 0 [(0, 1), (1, 1)] 0 [0], emptyEvent 1 [(0, 0), (1, 2)] 0 [],
    emptyEvent 0 [(0, 1), (1, 1)] 1 [0], emptyEvent 1 [(0, 0), (1, 2)] 1 [1, 2]]

def emptyInputs (address : ℕ) : ℕ := [1, 3].getD address 0

theorem listRuns_emptyBody : ListRuns emptyBody 0 emptyEvents := by
  have hround : ∀ address cells cells', (address, cells.length) ∈ [(0, 1), (1, 1)] →
      (address, cells'.length) ∈ [(0, 0), (1, 2)] → ListRuns
        [storeInput false "c" (.multiple [(0, 1), (1, 1)])
            (.load .var (.indexed (.value .u32 0) none) (.single 1)) .unknown true,
          storeInput false "c" (.multiple [(0, 0), (1, 2)])
            (.load .var (.indexed (.value .u32 0) none) (.single 1)) .unknown true] 0
        [emptyEvent 0 [(0, 1), (1, 1)] address cells, emptyEvent 1 [(0, 0), (1, 2)] address cells'] := by
    intro address cells cells' hcells hcells'
    refine ⟨[emptyEvent 0 [(0, 1), (1, 1)] address cells], [emptyEvent 1 [(0, 0), (1, 2)] address cells'],
      ⟨_, ⟨rfl, rfl, (fun _ _ heq => by cases heq), ?_⟩, rfl⟩,
      ⟨[emptyEvent 1 [(0, 0), (1, 2)] address cells'], [],
        ⟨_, ⟨rfl, rfl, (fun _ _ heq => by cases heq), ?_⟩, rfl⟩, rfl, rfl⟩, rfl⟩
    · exact ⟨cells.length, ⟨_, hcells, rfl⟩, cells.length, ⟨_, hcells, rfl⟩, (Nat.min_self _).symm⟩
    · exact ⟨cells'.length, ⟨_, hcells', rfl⟩, cells'.length, ⟨_, hcells', rfl⟩, (Nat.min_self _).symm⟩
  refine ⟨emptyEvents, [], ⟨[emptyEvents.take 2, emptyEvents.drop 2], fun round hmem => ?_, rfl⟩, rfl, rfl⟩
  rcases List.mem_cons.mp hmem with rfl | hmem
  · exact hround 0 [0] [] (by decide) (by decide)
  · obtain rfl := List.mem_singleton.mp hmem
    exact hround 1 [0] [1, 2] (by decide) (by decide)

theorem emptyEvents_once (address : ℕ) :
    ((eventsAt address emptyEvents).flatMap fun e => e.cells).Perm (List.range (emptyInputs address)) := by
  match address with
  | 0 => decide
  | 1 => decide
  | address + 2 =>
    have heq : eventsAt (address + 2) emptyEvents = [] :=
      List.filter_eq_nil_iff.mpr (by simp [emptyEvents, emptyEvent])
    rw [heq]
    exact List.Perm.refl _

theorem names_choiceBody (status status' : StatusInput) (needsDecrement : Bool) :
    Names (choiceBody status status' needsDecrement) (fun _ => "B_3_40") fun _ => true := by
  refine ⟨fun store hstore parseAs v _ => ?_, fun store hstore _ v => ?_⟩
  · simp only [choiceBody, storeInput, listInputStores, Instruction.inputStores, Instruction.inputStore,
      AddressType.inputStore, Option.toList, List.append_nil, List.mem_append, List.mem_singleton] at hstore
    rcases hstore with rfl | rfl <;> exact ⟨rfl, rfl⟩
  · simp only [choiceBody, storeInput, listInputStores, Instruction.inputStores, Instruction.inputStore,
      AddressType.inputStore, Option.toList, List.append_nil, List.mem_append, List.mem_singleton] at hstore
    have hne : "B_3_40" ≠ cmpKey v := by
      intro heq
      have h := congrArg (fun s : String => s.toList.head?) heq
      simp [cmpKey] at h
    rcases hstore with rfl | rfl <;> exact hne

theorem names_emptyBody : Names emptyBody (fun _ => "c") fun _ => false := by
  refine ⟨fun store hstore parseAs v haddress => ?_, fun store hstore hanonymous => ?_⟩
  · simp only [emptyBody, storeInput, listInputStores, Instruction.inputStores, Instruction.inputStore,
      AddressType.inputStore, Option.toList, List.append_nil, List.mem_append, List.mem_singleton] at hstore
    rcases hstore with rfl | rfl <;> simp at haddress
  · simp only [emptyBody, storeInput, listInputStores, Instruction.inputStores, Instruction.inputStore,
      AddressType.inputStore, Option.toList, List.append_nil, List.mem_append, List.mem_singleton] at hstore
    rcases hstore with rfl | rfl <;> simp at hanonymous

theorem runs_storeInput {isAnonymous needsDecrement : Bool} {cmpName : String} {size : ℕ}
    {status : StatusInput} {site : ℕ}
    (h : ListRuns [storeInput isAnonymous cmpName (.single size) (.value .u32 v) status needsDecrement] site
      events) : ∃ e, events = [e] ∧ e.address = v ∧ e.cells.length = size := by
  obtain ⟨head, tail, hhead, rfl, rfl⟩ := h
  obtain ⟨e, hexec, rfl⟩ := hhead
  obtain ⟨_, rfl, _, rfl, hlength⟩ := hexec.writes
  exact ⟨e, rfl, hexec.address_eq _ _ rfl, by rw [hlength, Nat.min_self]⟩

/-- The input of an anonymous component may be assigned by a choice: the component is not run on the side
that is visited last. A component whose inputs are complete is run again by a store that happens to be
empty. -/
theorem buildInputsInfo_not_runsOnce :
    (Names (choiceBody .unknown .unknown true) (fun _ => "B_3_40") (fun _ => true) ∧
      buildInputsInfo (choiceBody .unknown .unknown true) = some (choiceBody .last .noLast false) ∧
      (∀ events, ListRuns (choiceBody .last .noLast false) 0 events →
        ∃ e, events = [e] ∧ e.address = 0 ∧ e.cells.length = 1) ∧
      InputRun (choiceBody .last .noLast false) (fun _ => "B_3_40") (fun _ => true) (inputsOf 1) [elseEvent] ∧
      runsComponent (inputsOf 1 0) (eventsAt 0 [elseEvent]) = [false] ∧
      ¬RunsOnce (inputsOf 1) [elseEvent]) ∧
    (Names emptyBody (fun _ => "c") (fun _ => false) ∧ buildInputsInfo emptyBody = some emptyBody ∧
      InputRun emptyBody (fun _ => "c") (fun _ => false) emptyInputs emptyEvents ∧
      runsComponent (emptyInputs 0) (eventsAt 0 emptyEvents) = [true, true] ∧
      ¬RunsOnce emptyInputs emptyEvents) := by
  refine ⟨⟨names_choiceBody .., rfl, ?_, ⟨?_, by simp [elseEvent], by simp [elseEvent],
      eventsAt_cells_perm (by simp [elseEvent]) rfl⟩, rfl, ?_⟩,
    names_emptyBody, rfl, ⟨listRuns_emptyBody, by simp [emptyEvents, emptyEvent],
      by simp [emptyEvents, emptyEvent], emptyEvents_once⟩, rfl, ?_⟩
  · rintro events ⟨head, tail, hhead, rfl, rfl⟩
    rw [List.append_nil]
    rcases hhead with hhead | hhead
    · exact runs_storeInput hhead
    · exact runs_storeInput hhead
  · refine ⟨[elseEvent], [], Or.inr ⟨[elseEvent], [], ⟨elseEvent, ⟨rfl, rfl, ?_, ?_⟩, rfl⟩, rfl, rfl⟩, rfl, rfl⟩
    · rintro parseAs value heq
      cases heq
      rfl
    · exact ⟨1, rfl, 1, rfl, rfl⟩
  · intro h
    obtain ⟨before, last, after, -, -, -, -, -, hruns⟩ :=
      h 0 ⟨elseEvent, by simp [eventsAt, elseEvent], by simp [elseEvent]⟩
    have htrue : true ∈ runsComponent (inputsOf 1 0) (eventsAt 0 [elseEvent]) := by simp [hruns]
    revert htrue
    decide
  · intro h
    obtain ⟨before, last, after, -, -, -, -, -, hruns⟩ :=
      h 0 ⟨emptyEvent 0 [(0, 1), (1, 1)] 0 [0], by simp [eventsAt, emptyEvents, emptyEvent],
        by simp [emptyEvent]⟩
    have hcount := congrArg (List.count true) hruns
    have htwo : List.count true (runsComponent (emptyInputs 0) (eventsAt 0 emptyEvents)) = 2 := by decide
    rw [htwo, List.count_append, List.count_cons_self, List.count_replicate, List.count_replicate] at hcount
    simp at hcount

end Circom.IrProcessing
