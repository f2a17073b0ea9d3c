import Circom.IntermediateRepresentation.Instruction
import Mathlib.Data.Int.Notation
import Mathlib.Data.List.Basic

/-!
# Runs and the stores of inputs

A run of a list of instructions, as far as the inputs of components are concerned: the stores that are
executed, each with the address of its component and the cells that it writes. Conditions are not evaluated:
every choice of branches and every number of iterations is a run.
-/

namespace Circom.IntermediateRepresentation

variable {instruction : Instruction} {site : ℕ}

/-- A store of an input of a component. -/
structure InputStore where
  context : SizeOption
  srcContext : Option SizeOption
  cmpAddress : Instruction
  status : StatusInput
  needsDecrement : Bool
  isAnonymous : Bool
  cmpName : String

/-- The store of an address of a component, if it is an input. -/
def AddressType.inputStore (context : SizeOption) (srcContext : Option SizeOption) :
    AddressType → Option InputStore
  | .subcmpSignal cmpAddress _ (.input status needsDecrement) isAnonymous cmpName =>
    some ⟨context, srcContext, cmpAddress, status, needsDecrement, isAnonymous, cmpName⟩
  | _ => none

/-- The input that an instruction stores itself. -/
def Instruction.inputStore : Instruction → Option InputStore
  | .store context srcContext destAddressType _ _ =>
    destAddressType.inputStore context (some srcContext)
  | .call _ _ (.final context destAddressType _) => destAddressType.inputStore context none
  | _ => none

mutual

/-- The stores of inputs in an instruction, in the order of the text. -/
def Instruction.inputStores : Instruction → List InputStore
  | .branch _ ifBranch elseBranch => listInputStores ifBranch ++ listInputStores elseBranch
  | .loop _ body => listInputStores body
  | instruction => instruction.inputStore.toList

def listInputStores : List Instruction → List InputStore
  | [] => []
  | instruction :: instructions => instruction.inputStores ++ listInputStores instructions

end

/-- The sizes that are possible when the program runs. -/
def SizeOption.Admits : SizeOption → ℕ → Prop
  | .single value, n => n = value
  | .multiple values, n => ∃ e ∈ values, n = e.2

/-- The size of a store is the smaller one of its two sides. -/
def InputStore.Writes (store : InputStore) (n : ℕ) : Prop :=
  ∃ size, store.context.Admits size ∧
    match store.srcContext with
    | none => n = size
    | some srcContext => ∃ srcSize, srcContext.Admits srcSize ∧ n = min size srcSize

/-- A store that is executed: its place in the text, the address of the component, and the cells that it
writes. -/
structure StoreEvent where
  site : ℕ
  store : InputStore
  address : ℕ
  cells : List ℕ

/-- A known address is the address of the component, and the number of cells fits the size. -/
structure StoreEvent.Executes (event : StoreEvent) (site : ℕ) (store : InputStore) : Prop where
  site_eq : event.site = site
  store_eq : event.store = store
  address_eq : ∀ parseAs value, store.cmpAddress = .value parseAs value → event.address = value
  writes : store.Writes event.cells.length

mutual

/-- The events of a run of an instruction whose stores are numbered from `site` on. -/
def Instruction.Runs : Instruction → ℕ → List StoreEvent → Prop
  | .branch _ ifBranch elseBranch, site, events =>
    ListRuns ifBranch site events ∨
      ListRuns elseBranch (site + (listInputStores ifBranch).length) events
  | .loop _ body, site, events =>
    ∃ rounds : List (List StoreEvent), (∀ round ∈ rounds, ListRuns body site round) ∧
      events = rounds.flatten
  | instruction, site, events =>
    match instruction.inputStore with
    | none => events = []
    | some store => ∃ event : StoreEvent, event.Executes site store ∧ events = [event]

def ListRuns : List Instruction → ℕ → List StoreEvent → Prop
  | [], _, events => events = []
  | instruction :: instructions, site, events =>
    ∃ head tail, instruction.Runs site head ∧
      ListRuns instructions (site + instruction.inputStores.length) tail ∧ events = head ++ tail

end

/-! ## The instructions that hold no others -/

/-- An instruction that is neither a branch nor a loop. -/
def Instruction.IsDirect : Instruction → Prop
  | .branch .. => False
  | .loop .. => False
  | _ => True

theorem Instruction.IsDirect.inputStores_eq (h : instruction.IsDirect) :
    instruction.inputStores = instruction.inputStore.toList := by
  cases instruction with
  | branch => exact h.elim
  | loop => exact h.elim
  | _ => rfl

variable {events : List StoreEvent}

theorem Instruction.IsDirect.runs_none (h : instruction.IsDirect) (hstore : instruction.inputStore = none) :
    instruction.Runs site events ↔ events = [] := by
  cases instruction with
  | branch => exact h.elim
  | loop => exact h.elim
  | store => simp only [Instruction.Runs, hstore]
  | call => simp only [Instruction.Runs, hstore]
  | _ => simp only [Instruction.Runs, Instruction.inputStore]

theorem Instruction.IsDirect.runs_some (h : instruction.IsDirect) {store : InputStore}
    (hstore : instruction.inputStore = some store) :
    instruction.Runs site events ↔ ∃ event : StoreEvent, event.Executes site store ∧ events = [event] := by
  cases instruction with
  | branch => exact h.elim
  | loop => exact h.elim
  | store => simp only [Instruction.Runs, hstore]
  | call => simp only [Instruction.Runs, hstore]
  | _ => simp [Instruction.inputStore] at hstore

/-! ## The stores of a run -/

/-- An event is the execution of one of the stores, which are numbered from `site` on. -/
def StoreEvent.IsOf (event : StoreEvent) (stores : List InputStore) (site : ℕ) : Prop :=
  ∃ k, stores[k]? = some event.store ∧ event.Executes (site + k) event.store

variable {stores : List InputStore} {event : StoreEvent}

theorem StoreEvent.IsOf.append_right
    (h : event.IsOf stores site) (stores₂ : List InputStore) : event.IsOf (stores ++ stores₂) site := by
  obtain ⟨k, hk, hexec⟩ := h
  exact ⟨k, by rw [List.getElem?_append_left (List.getElem?_eq_some_iff.mp hk).1, hk], hexec⟩

theorem StoreEvent.IsOf.append_left (stores₁ : List InputStore) (h : event.IsOf stores (site + stores₁.length)) :
    event.IsOf (stores₁ ++ stores) site := by
  obtain ⟨k, hk, hexec⟩ := h
  refine ⟨stores₁.length + k, ?_, ?_⟩
  · rw [List.getElem?_append_right (by omega), Nat.add_sub_cancel_left, hk]
  · rwa [← Nat.add_assoc]

theorem StoreEvent.IsOf.store_mem (h : event.IsOf stores site) : event.store ∈ stores := by
  obtain ⟨k, hk, -⟩ := h
  exact List.mem_of_getElem? hk

theorem Instruction.IsDirect.isOf (instruction : Instruction) (hdirect : instruction.IsDirect)
    (h : instruction.Runs site events) (event : StoreEvent)
    (hevent : event ∈ events) : event.IsOf instruction.inputStores site := by
  cases hstore : instruction.inputStore with
  | none =>
    rw [hdirect.runs_none hstore] at h
    simp [h] at hevent
  | some store =>
    obtain ⟨event', hexec, rfl⟩ := (hdirect.runs_some hstore).mp h
    obtain rfl := List.mem_singleton.mp hevent
    rw [hdirect.inputStores_eq, hstore, ← hexec.store_eq]
    exact ⟨0, rfl, by rw [hexec.store_eq]; exact hexec⟩

mutual

theorem Instruction.Runs.isOf : ∀ (instruction : Instruction) {site : ℕ} {events : List StoreEvent},
    instruction.Runs site events → ∀ event ∈ events, event.IsOf instruction.inputStores site
  | .branch _ ifBranch elseBranch, site, events, h, event, hevent => by
    rcases h with h | h
    · exact (ListRuns.isOf ifBranch h event hevent).append_right _
    · exact StoreEvent.IsOf.append_left _ (ListRuns.isOf elseBranch h event hevent)
  | .loop _ body, site, events, h, event, hevent => by
    obtain ⟨rounds, hrounds, rfl⟩ := h
    obtain ⟨round, hround, hevent⟩ := List.mem_flatten.mp hevent
    exact ListRuns.isOf body (hrounds round hround) event hevent
  | .store context srcContext destAddressType dest src, _, _, h, event, hevent =>
    Instruction.IsDirect.isOf (.store context srcContext destAddressType dest src) trivial h event hevent
  | .call symbol arguments returnInfo, _, _, h, event, hevent =>
    Instruction.IsDirect.isOf (.call symbol arguments returnInfo) trivial h event hevent
  | .value parseAs value, _, _, h, event, hevent =>
    Instruction.IsDirect.isOf (.value parseAs value) trivial h event hevent
  | .load addressType src context, _, _, h, event, hevent =>
    Instruction.IsDirect.isOf (.load addressType src context) trivial h event hevent
  | .compute op stack, _, _, h, event, hevent =>
    Instruction.IsDirect.isOf (.compute op stack) trivial h event hevent
  | .ret withSize value, _, _, h, event, hevent =>
    Instruction.IsDirect.isOf (.ret withSize value) trivial h event hevent
  | .assert evaluate, _, _, h, event, hevent =>
    Instruction.IsDirect.isOf (.assert evaluate) trivial h event hevent
  | .log argsprint, _, _, h, event, hevent =>
    Instruction.IsDirect.isOf (.log argsprint) trivial h event hevent
  | .createCmp symbol subCmpId, _, _, h, event, hevent =>
    Instruction.IsDirect.isOf (.createCmp symbol subCmpId) trivial h event hevent

/-- Every event of a run executes one of the stores in the text, at its place. -/
theorem ListRuns.isOf : ∀ (code : List Instruction) {site : ℕ} {events : List StoreEvent},
    ListRuns code site events → ∀ event ∈ events, event.IsOf (listInputStores code) site
  | [], site, events, h, event, hevent => by
    rw [ListRuns] at h
    simp [h] at hevent
  | instruction :: instructions, site, events, h, event, hevent => by
    obtain ⟨head, tail, hhead, htail, rfl⟩ := h
    rcases List.mem_append.mp hevent with hevent | hevent
    · exact (Instruction.Runs.isOf instruction hhead event hevent).append_right _
    · exact StoreEvent.IsOf.append_left _ (ListRuns.isOf instructions htail event hevent)

end

/-- For each of the stores to one component, whether the component is run there. The counter is the number
of inputs that are missing. -/
def runsComponent (counter : ℤ) : List StoreEvent → List Bool
  | [] => []
  | event :: events =>
    let counter := if event.store.needsDecrement then counter - event.cells.length else counter
    (event.store.status = .last || event.store.status = .unknown && counter = 0) ::
      runsComponent counter events

end Circom.IntermediateRepresentation
