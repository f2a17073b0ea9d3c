import Circom.IrProcessing.Proofs.KnownComponents

/-!
# The top level of a body

A store at the top level is part of every run. The last one to a component runs it, unless a store before it
has to count.
-/

namespace Circom.IrProcessing

open Circom.IntermediateRepresentation
open Circom.Lib (HashMap)

variable {level' : Finset String} {n : String} {v : ℕ}

/-- The store that runs the component at `v` comes after the other stores to it. -/
def EndsWithLast (v : ℕ) (n : String) (events : List StoreEvent) : Prop :=
  ∃ before last after, events = before ++ last :: after ∧
    IsKnown v last.store ∧ last.store.status = .last ∧
    (∀ e ∈ before, IsKnown v e.store → e.store.status = .noLast) ∧
    ∀ e ∈ after, ¬IsKnown v e.store ∧ ¬IsUnknownOf n e.store

theorem EndsWithLast.append (events₁ : List StoreEvent) {events₂ : List StoreEvent} (h : EndsWithLast v n events₂)
    (hevents : ∀ e ∈ events₁, IsKnown v e.store → e.store.status = .noLast) :
    EndsWithLast v n (events₁ ++ events₂) := by
  obtain ⟨before, last, after, rfl, hknown, hlast, hbefore, hafter⟩ := h
  refine ⟨events₁ ++ before, last, after, by rw [List.append_assoc], hknown, hlast, ?_, hafter⟩
  intro e he
  rcases List.mem_append.mp he with he | he
  · exact hevents e he
  · exact hbefore e he

/-- The stores of every run count: none runs the component before all inputs are there. -/
structure Counted (v : ℕ) (stores : List InputStore) (runs : List StoreEvent → Prop) : Prop where
  counts : ∀ store ∈ stores, IsKnown v store → Counts store
  followed : ∀ events, runs events → Followed v events

/-- The state of the component at `v` when the rest of the body has been visited. -/
inductive ComponentState (v : ℕ) (n : String) (tables : Tables) (stores : List InputStore)
    (runs : List StoreEvent → Prop) : Prop where
  | untouched (hlookup : tables.assignmentStatus.lookup (cmpKey v) = none)
      (hstores : ∀ store ∈ stores, ¬IsKnown v store)
  | counted (hlookup : tables.assignmentStatus.lookup (cmpKey v) = some ⟨true, false⟩)
      (hcounted : Counted v stores runs)
  | reached (hlookup : tables.assignmentStatus.lookup (cmpKey v) = some ⟨true, true⟩)
      (hcounted : Counted v stores runs)
      (hreached : ∀ events, runs events → ∃ e ∈ events, IsKnown v e.store)
  | last (hlookup : tables.assignmentStatus.lookup (cmpKey v) = some ⟨false, true⟩)
      (hlast : ∀ events, runs events → EndsWithLast v n events)

/-- The stores whose address is computed always count. -/
def UnknownCount (n : String) (tables : Tables) (stores : List InputStore) : Prop :=
  ∀ store ∈ stores, IsUnknownOf n store →
    store.status = .unknown ∧ store.needsDecrement = true ∧ n ∈ tables.unknownComponentNames

/-- The stores of the events are those of the text. -/
def FromText (stores : List InputStore) (runs : List StoreEvent → Prop) : Prop :=
  ∀ events, runs events → ∀ e ∈ events, e.store ∈ stores

theorem Followed.of_forall_not {events : List StoreEvent}
    (h : ∀ e ∈ events, ¬IsKnown v e.store) : Followed v events := by
  induction events with
  | nil => trivial
  | cons event events ih =>
    exact ⟨fun hknown => absurd hknown (h event (List.mem_cons_self ..)),
      ih fun e he => h e (List.mem_cons_of_mem _ he)⟩

section

variable {v : ℕ} {n : String} {tables tables' : Tables} {stores stores' : List InputStore}
  {runs runs' : List StoreEvent → Prop}

/-- The runs of an instruction before the rest of the body. -/
def Before (runs' runs : List StoreEvent → Prop) (events : List StoreEvent) : Prop :=
  ∃ head tail, runs' head ∧ runs tail ∧ events = head ++ tail

theorem Counted.before (h : Counted v stores runs) (hopen : IsOpen v tables)
    (hnested : Nested v n tables tables' stores' runs') :
    Counted v (stores' ++ stores) (Before runs' runs) where
  counts := by
    intro store hstore hknown
    rcases List.mem_append.mp hstore with hstore | hstore
    · exact hnested.counts hopen store hstore hknown
    · exact h.counts store hstore hknown
  followed := by
    rintro events ⟨head, tail, hhead, htail, rfl⟩
    exact (hnested.followed hopen head hhead).append (h.followed tail htail)

/-- An instruction that is no store to the component itself. -/
theorem ComponentState.before (h : ComponentState v n tables stores runs)
    (hrest : FromText stores runs) (hnested : Nested v n tables tables' stores' runs')
    (hfrom : FromText stores' runs') :
    ComponentState v n tables' (stores' ++ stores) (Before runs' runs) := by
  cases h with
  | untouched hlookup hstores =>
    have hopen : IsOpen v tables := Or.inl hlookup
    have hcounted : Counted v stores runs :=
      ⟨fun store hstore hknown => absurd hknown (hstores store hstore), fun events hrun =>
        Followed.of_forall_not fun e he => hstores e.store (hrest events hrun e he)⟩
    rcases hnested.isOpen hopen with hlookup' | hlookup'
    · refine .untouched hlookup' fun store hstore => ?_
      rcases List.mem_append.mp hstore with hstore | hstore
      · exact (hnested.untouched hlookup').2 store hstore
      · exact hstores store hstore
    · exact .counted hlookup' (hcounted.before hopen hnested)
  | counted hlookup hcounted =>
    have hopen : IsOpen v tables := Or.inr hlookup
    rcases hnested.isOpen hopen with hlookup' | hlookup'
    · have hnone := (hnested.untouched hlookup').1
      rw [hlookup] at hnone
      cases hnone
    · exact .counted hlookup' (hcounted.before hopen hnested)
  | reached hlookup hcounted hreached =>
    obtain ⟨hlookup', hclosed⟩ := hnested.closed true hlookup
    refine .reached hlookup' ⟨?_, ?_⟩ ?_
    · intro store hstore hknown
      rcases List.mem_append.mp hstore with hstore | hstore
      · obtain ⟨hstatus, hdecrement⟩ := hclosed store hstore hknown
        exact ⟨hdecrement, Or.inr hstatus⟩
      · exact hcounted.counts store hstore hknown
    · rintro events ⟨head, tail, -, htail, rfl⟩
      exact Followed.append_of_exists head (hreached tail htail) (hcounted.followed tail htail)
    · rintro events ⟨head, tail, -, htail, rfl⟩
      obtain ⟨e, he, hknown⟩ := hreached tail htail
      exact ⟨e, List.mem_append_right _ he, hknown⟩
  | last hlookup hlast =>
    obtain ⟨hlookup', hclosed⟩ := hnested.closed false hlookup
    refine .last hlookup' ?_
    rintro events ⟨head, tail, hhead, htail, rfl⟩
    exact (hlast tail htail).append head fun e he hknown =>
      (hclosed e.store (hfrom head hhead e he) hknown).1

theorem UnknownCount.before (h : UnknownCount n tables stores)
    (hnested : Nested v n tables tables' stores' runs') : UnknownCount n tables' (stores' ++ stores) := by
  intro store hstore hunknown
  rcases List.mem_append.mp hstore with hstore | hstore
  · exact hnested.unknown store hstore hunknown
  · obtain ⟨hstatus, hdecrement, hmem⟩ := h store hstore hunknown
    exact ⟨hstatus, hdecrement, hnested.names hmem⟩

/-- The visit of a store to the component at the top level. -/
theorem visitKnown_false_cases (tables : Tables) (n key : String) :
    (∃ needsDecrement, tables.assignmentStatus.lookup key = some ⟨needsDecrement, true⟩ ∧
        visitKnown false tables ∅ n key = ⟨.noLast, needsDecrement, tables, ∅⟩) ∨
      (∃ needsDecrement, tables.assignmentStatus.lookup key = some ⟨needsDecrement, false⟩ ∧
        visitKnown false tables ∅ n key = ⟨.unknown, true, { tables with
          assignmentStatus := tables.assignmentStatus.insert key ⟨needsDecrement, true⟩ }, ∅⟩) ∨
      (tables.assignmentStatus.lookup key = none ∧ n ∉ tables.unknownComponentNames ∧
        visitKnown false tables ∅ n key = ⟨.last, false, { tables with
          assignmentStatus := tables.assignmentStatus.insert key ⟨false, true⟩ }, ∅⟩) ∨
      (tables.assignmentStatus.lookup key = none ∧
        visitKnown false tables ∅ n key = ⟨.unknown, true, { tables with
          assignmentStatus := tables.assignmentStatus.insert key ⟨true, true⟩ }, ∅⟩) := by
  unfold visitKnown
  cases hlookup : tables.assignmentStatus.lookup key with
  | none =>
    by_cases hn : n ∈ tables.unknownComponentNames
    · exact Or.inr (Or.inr (Or.inr ⟨rfl, by simp [hn]⟩))
    · exact Or.inr (Or.inr (Or.inl ⟨rfl, hn, by simp [hn]⟩))
  | some info =>
    obtain ⟨needsDecrement, foundLast⟩ := info
    cases foundLast with
    | true => exact Or.inl ⟨needsDecrement, rfl, rfl⟩
    | false => exact Or.inr (Or.inl ⟨needsDecrement, rfl, by simp⟩)

/-- The runs of a store before the rest of the body. -/
def StoreBefore (store : InputStore) (runs : List StoreEvent → Prop) (events : List StoreEvent) : Prop :=
  ∃ (e : StoreEvent) (rest : List StoreEvent), e.store = store ∧ runs rest ∧ events = e :: rest

theorem Counted.cons {store : InputStore} (h : Counted v stores runs) (hcounts : Counts store)
    (hfollowed : store.status = .noLast → ∀ events, runs events → ∃ e ∈ events, IsKnown v e.store) :
    Counted v (store :: stores) (StoreBefore store runs) where
  counts := by
    intro s hs hknown
    rcases List.mem_cons.mp hs with rfl | hs
    · exact hcounts
    · exact h.counts s hs hknown
  followed := by
    rintro events ⟨e, rest, rfl, hrun, rfl⟩
    exact ⟨fun _ hstatus => hfollowed hstatus rest hrun, h.followed rest hrun⟩

theorem reached_storeBefore {store : InputStore} (hknown : IsKnown v store) :
    ∀ events, StoreBefore store runs events → ∃ e ∈ events, IsKnown v e.store := by
  rintro events ⟨e, rest, rfl, -, rfl⟩
  exact ⟨e, List.mem_cons_self .., hknown⟩

/-- A store to the component. -/
theorem ComponentState.store (h : ComponentState v n tables stores runs) (hrest : FromText stores runs)
    (hunknown : UnknownCount n tables stores) {store store' : InputStore}
    (hmarks : Marks false tables ∅ store store' tables' level') (hknown : IsKnown v store) (hname : store.cmpName = n) :
    ComponentState v n tables' (store' :: stores) (StoreBefore store' runs) := by
  have hknown' := hmarks.isKnown_iff.mpr hknown
  obtain ⟨visited, hvisited, rfl, rfl, -⟩ := hmarks.of_isKnown hknown
  rw [hname] at hvisited
  obtain ⟨d, hlookup, hvisit⟩ | ⟨d, hlookup, hvisit⟩ | ⟨hlookup, hn, hvisit⟩ | ⟨hlookup, hvisit⟩ :=
    visitKnown_false_cases tables n (cmpKey v)
  · obtain rfl := hvisit.symm.trans hvisited
    cases h with
    | untouched hlookup' => simp [hlookup] at hlookup'
    | counted hlookup' => simp [hlookup] at hlookup'
    | reached hlookup' hcounted hreached =>
      obtain rfl : d = true := by simpa [hlookup] using hlookup'
      exact .reached hlookup (hcounted.cons ⟨rfl, Or.inr rfl⟩ fun _ => hreached)
        (reached_storeBefore hknown')
    | last hlookup' hlast =>
      obtain rfl : d = false := by simpa [hlookup] using hlookup'
      refine .last hlookup ?_
      rintro events ⟨e, rest, he, hrun, rfl⟩
      refine (hlast rest hrun).append [e] fun e' he' _ => ?_
      rw [List.mem_singleton.mp he', he]
      rfl
  · obtain rfl := hvisit.symm.trans hvisited
    cases h with
    | untouched hlookup' => simp [hlookup] at hlookup'
    | counted hlookup' hcounted =>
      obtain rfl : d = true := by simpa [hlookup] using hlookup'
      exact .reached (AList.lookup_insert _)
        (hcounted.cons ⟨rfl, Or.inl rfl⟩ fun h => by simp [withStatus] at h)
        (reached_storeBefore hknown')
    | reached hlookup' => simp [hlookup] at hlookup'
    | last hlookup' => simp [hlookup] at hlookup'
  · -- no store whose address is computed comes later
    obtain rfl := hvisit.symm.trans hvisited
    cases h with
    | untouched _ hstores =>
      refine .last (AList.lookup_insert _) ?_
      rintro events ⟨e, rest, he, hrun, rfl⟩
      refine ⟨[], e, rest, rfl, he ▸ hknown', by rw [he]; rfl, by simp, fun e' he' => ?_⟩
      have hmem := hrest rest hrun e' he'
      exact ⟨hstores _ hmem, fun h => hn (hunknown _ hmem h).2.2⟩
    | counted hlookup' => simp [hlookup] at hlookup'
    | reached hlookup' => simp [hlookup] at hlookup'
    | last hlookup' => simp [hlookup] at hlookup'
  · obtain rfl := hvisit.symm.trans hvisited
    cases h with
    | untouched _ hstores =>
      have hcounted : Counted v stores runs :=
        ⟨fun s hs h => absurd h (hstores s hs), fun events hrun =>
          Followed.of_forall_not fun e he => hstores e.store (hrest events hrun e he)⟩
      exact .reached (AList.lookup_insert _)
        (hcounted.cons ⟨rfl, Or.inl rfl⟩ fun h => by simp [withStatus] at h)
        (reached_storeBefore hknown')
    | counted hlookup' => simp [hlookup] at hlookup'
    | reached hlookup' => simp [hlookup] at hlookup'
    | last hlookup' => simp [hlookup] at hlookup'

end

theorem HasInstructionRun.fromText (instruction : Instruction) :
    FromText instruction.inputStores (HasInstructionRun instruction) := by
  rintro events ⟨site, hrun⟩ e he
  exact (Instruction.Runs.isOf instruction hrun e he).store_mem

theorem HasRun.fromText (code : List Instruction) : FromText (listInputStores code) (HasRun code) := by
  rintro events ⟨site, hrun⟩ e he
  exact (ListRuns.isOf code hrun e he).store_mem

theorem ComponentState.mono {tables : Tables} {stores : List InputStore}
    {runs runs' : List StoreEvent → Prop} (h : ComponentState v n tables stores runs)
    (hruns : ∀ events, runs' events → runs events) : ComponentState v n tables stores runs' := by
  cases h with
  | untouched hlookup hstores => exact .untouched hlookup hstores
  | counted hlookup hcounted =>
    exact .counted hlookup ⟨hcounted.counts, fun events h => hcounted.followed events (hruns events h)⟩
  | reached hlookup hcounted hreached =>
    exact .reached hlookup
      ⟨hcounted.counts, fun events h => hcounted.followed events (hruns events h)⟩
      fun events h => hreached events (hruns events h)
  | last hlookup hlast => exact .last hlookup fun events h => hlast events (hruns events h)

/-- The invariant of the loop over a body. -/
structure TopLevel (v : ℕ) (n : String) (code : List Instruction) (tables : Tables)
    (level : Finset String) : Prop where
  level_eq : level = ∅
  state : ComponentState v n tables (listInputStores code) (HasRun code)
  unknown : UnknownCount n tables (listInputStores code)

/-- At the top level no key is added to the set of the level. -/
theorem Visits.level_eq {tables tables' : Tables} {instruction instruction' : Instruction}
    (h : Visits false tables ∅ instruction instruction' tables' level') : level' = ∅ := by
  cases h with
  | branch => rfl
  | loop => rfl
  | skip => rfl
  | mark _ _ _ _ hmarks =>
    cases hmarks with
    | empty => rfl
    | anonymous _ _ visited hv => exact (visitAnonymous_eq hv).2.1
    | @known _ _ _ v _ visited hvisited =>
      rw [← hvisited]
      obtain ⟨_, -, h⟩ | ⟨_, -, h⟩ | ⟨-, -, h⟩ | ⟨-, h⟩ := visitKnown_false_cases tables _ (cmpKey v) <;>
        rw [h]
    | unknown => rfl

theorem topLevel_of_visitFromEnd (code : List Instruction) {code' : List Instruction} {tables' : Tables}
    (h : visitFromEnd false {} code = some (code', tables', level'))
    (hfits : ∀ store ∈ listInputStores code, Fits v n store) : TopLevel v n code' tables' level' := by
  induction code generalizing code' tables' level' with
  | nil =>
    simp only [visitFromEnd, Option.some.injEq, Prod.mk.injEq] at h
    obtain ⟨rfl, rfl, rfl⟩ := h
    exact ⟨rfl, .untouched rfl (by simp [listInputStores]), by simp [UnknownCount, listInputStores]⟩
  | cons instruction instructions ih =>
    obtain ⟨instruction', instructions', tables₁, level₁, rfl, hrest, hfirst⟩ := visitFromEnd_cons h
    obtain ⟨rfl, hstate, hunknown⟩ := ih hrest fun s hs => hfits s (List.mem_append_right _ hs)
    have hvisits := visits_of_eq hfirst
    have hfrom := HasRun.fromText instructions'
    by_cases hdirect : ∃ store, instruction.inputStore = some store ∧ IsKnown v store
    · obtain ⟨store, hstore, hknown⟩ := hdirect
      cases hvisits with
      | branch => simp [Instruction.inputStore] at hstore
      | loop => simp [Instruction.inputStore] at hstore
      | skip _ _ hnone => simp [hnone] at hstore
      | @mark _ _ store₀ store' _ _ hdirect hdirect' hstore₀ hstore' hmarks =>
        obtain rfl := Option.some.inj (hstore.symm.trans hstore₀)
        have hmem : store ∈ listInputStores (instruction :: instructions) := by
          rw [listInputStores, hdirect.inputStores_eq, hstore]
          exact List.mem_cons_self ..
        have hname := (hfits store hmem).cmpName_eq hknown
        have hstate' := hstate.store hfrom hunknown hmarks hknown hname
        have hruns : ∀ events, HasRun (instruction' :: instructions') events →
            StoreBefore store' (HasRun instructions') events := by
          intro events hrun
          obtain ⟨head, tail, hhead, htail, rfl⟩ := hrun.cons
          obtain ⟨e, he, rfl⟩ := hhead.eq_singleton hdirect' hstore'
          exact ⟨e, tail, he, htail, rfl⟩
        refine ⟨(Visits.mark hdirect hdirect' hstore hstore' hmarks).level_eq, ?_, ?_⟩
        · rw [listInputStores, hdirect'.inputStores_eq, hstore']
          exact hstate'.mono hruns
        · rw [listInputStores, hdirect'.inputStores_eq, hstore']
          intro s hs hs'
          rcases List.mem_cons.mp hs with rfl | hs
          · exact absurd hs' (hmarks.isKnown_iff.mpr hknown).not_isUnknownOf
          · obtain ⟨hstatus, hdecrement, hn⟩ := hunknown s hs hs'
            exact ⟨hstatus, hdecrement, hmarks.names hn⟩
    · have hother : ∀ store, instruction.inputStore = some store → ¬IsKnown v store :=
        fun store hstore hknown => hdirect ⟨store, hstore, hknown⟩
      obtain ⟨hnested, -⟩ := Visits.nested instruction hvisits
        (fun s hs => hfits s (List.mem_append_left _ hs)) hother
      have hstate' := hstate.before hfrom hnested (HasInstructionRun.fromText instruction')
      exact ⟨hvisits.level_eq, hstate'.mono fun events hrun => hrun.cons, hunknown.before hnested⟩

end Circom.IrProcessing
