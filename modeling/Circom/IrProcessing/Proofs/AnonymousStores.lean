import Circom.IrProcessing.Proofs.KnownComponents

/-!
# The stores of an anonymous component

The store of an anonymous component that is visited first runs the component. It is the last one in the text
if no branch has stores of the component on both sides.
-/

namespace Circom.IrProcessing

open Circom.IntermediateRepresentation
open Circom.Lib (HashMap)

variable {store store' : InputStore} {stores stores' : List InputStore} {n : String} {tables tables' : Tables}

instance (n : String) (store : InputStore) : Decidable (IsAnonymousOf n store) := by
  unfold IsAnonymousOf
  infer_instance

mutual

/-- No branch has stores of the anonymous component `n` on both sides. -/
def Instruction.NotSplit (n : String) : Instruction → Prop
  | .branch _ ifBranch elseBranch => ListNotSplit n ifBranch ∧ ListNotSplit n elseBranch ∧
    ((∀ store ∈ listInputStores ifBranch, ¬IsAnonymousOf n store) ∨
      ∀ store ∈ listInputStores elseBranch, ¬IsAnonymousOf n store)
  | .loop _ body => ListNotSplit n body
  | _ => True

def ListNotSplit (n : String) : List Instruction → Prop
  | [] => True
  | instruction :: instructions => Instruction.NotSplit n instruction ∧ ListNotSplit n instructions

end

/-! ## The stores that the visit leaves -/

/-- A store and the same store after the visit. -/
structure Marked (store store' : InputStore) : Prop where
  eq_withStatus : ∃ status needsDecrement, store' = withStatus store status needsDecrement
  empty : alwaysEmpty store.context = true → store'.status = .sizeZero

theorem Marked.isAnonymousOf_iff (h : Marked store store') : IsAnonymousOf n store' ↔ IsAnonymousOf n store := by
  obtain ⟨status, needsDecrement, rfl⟩ := h.eq_withStatus
  exact isAnonymousOf_withStatus

theorem Marks.marked {insideLoop : Bool} {level level' : Finset String}
    (h : Marks insideLoop tables level store store' tables' level') : Marked store store' := by
  refine ⟨h.eq_withStatus, fun hempty => ?_⟩
  cases h with
  | empty => rfl
  | anonymous h => simp [h] at hempty
  | known h => simp [h] at hempty
  | unknown h => simp [h] at hempty

mutual

theorem Visits.marked : ∀ (instruction : Instruction) {instruction' : Instruction} {insideLoop : Bool}
    {tables tables' : Tables} {level level' : Finset String},
    Visits insideLoop tables level instruction instruction' tables' level' →
    List.Forall₂ Marked instruction.inputStores instruction'.inputStores
  | .branch _ ifBranch elseBranch, _, _, _, _, _, _, .branch _ hif helse =>
    List.rel_append (marked_of_visitFromEnd ifBranch hif) (marked_of_visitFromEnd elseBranch helse)
  | .loop _ body, _, _, _, _, _, _, .loop _ hbody => marked_of_visitFromEnd body hbody
  | instruction, instruction', _, _, _, _, _, .skip hdirect hdirect' hstore hstore' => by
    rw [hdirect.inputStores_eq, hdirect'.inputStores_eq, hstore, hstore']
    exact .nil
  | instruction, instruction', _, _, _, _, _, .mark hdirect hdirect' hstore hstore' hmarks => by
    rw [hdirect.inputStores_eq, hdirect'.inputStores_eq, hstore, hstore']
    exact .cons hmarks.marked .nil

theorem marked_of_visitFromEnd : ∀ (code : List Instruction) {code' : List Instruction}
    {insideLoop : Bool} {tables tables' : Tables} {level' : Finset String},
    visitFromEnd insideLoop tables code = some (code', tables', level') →
    List.Forall₂ Marked (listInputStores code) (listInputStores code')
  | [], code', _, tables, tables', level', h => by
    simp only [visitFromEnd, Option.some.injEq, Prod.mk.injEq] at h
    obtain ⟨rfl, rfl, rfl⟩ := h
    exact .nil
  | instruction :: instructions, code', _, tables, tables', level', h => by
    obtain ⟨instruction', instructions', tables₁, level₁, rfl, hrest, hfirst⟩ := visitFromEnd_cons h
    exact List.rel_append (Visits.marked instruction (visits_of_eq hfirst))
      (marked_of_visitFromEnd instructions hrest)

end

/-! ## The order of the stores -/

/-- The stores of the anonymous component `n`, in the order of the text. -/
def anonymousStores (n : String) (stores : List InputStore) : List InputStore :=
  stores.filter fun store => IsAnonymousOf n store

/-- The visit of a part of the text, for the anonymous component `n`. -/
inductive Orders (n : String) (tables tables' : Tables) (stores : List InputStore) : Prop where
  | absent (h : tables.assignmentStatus.lookup n = none) (h' : tables'.assignmentStatus.lookup n = none)
      (hstores : anonymousStores n stores = [])
  | last (h : tables.assignmentStatus.lookup n = none) (h' : tables'.assignmentStatus.lookup n ≠ none)
      (hstores : ∃ init final, anonymousStores n stores = init ++ [final] ∧ final.status = .last ∧
        ∀ store ∈ init, store.status = .noLast)
  | found (h : tables.assignmentStatus.lookup n ≠ none) (h' : tables'.assignmentStatus.lookup n ≠ none)
      (hstores : ∀ store ∈ anonymousStores n stores, store.status = .noLast)

theorem Orders.refl (n : String) (tables : Tables)
    (hstores : anonymousStores n stores = []) : Orders n tables tables stores := by
  by_cases h : tables.assignmentStatus.lookup n = none
  · exact .absent h h hstores
  · exact .found h h (by simp [hstores])

theorem anonymousStores_append (n : String) (stores₁ stores₂ : List InputStore) :
    anonymousStores n (stores₁ ++ stores₂) = anonymousStores n stores₁ ++ anonymousStores n stores₂ :=
  List.filter_append ..

/-- The part that comes later in the text is visited first. -/
theorem Orders.trans {tables₁ tables₂ : Tables} {stores₁ stores₂ : List InputStore}
    (h₁ : Orders n tables tables₁ stores₁) (h₂ : Orders n tables₁ tables₂ stores₂) :
    Orders n tables tables₂ (stores₂ ++ stores₁) := by
  cases h₁ with
  | absent h h' hstores₁ =>
    cases h₂ with
    | absent _ h'' hstores₂ =>
      exact .absent h h'' (by rw [anonymousStores_append, hstores₁, hstores₂, List.append_nil])
    | last _ h'' hstores₂ =>
      exact .last h h'' (by rwa [anonymousStores_append, hstores₁, List.append_nil])
    | found hne => exact absurd h' hne
  | last h h' hstores₁ =>
    cases h₂ with
    | absent hnone => exact absurd hnone h'
    | last hnone => exact absurd hnone h'
    | found _ h'' hstores₂ =>
      obtain ⟨init, final, heq, hfinal, hinit⟩ := hstores₁
      refine .last h h'' ⟨anonymousStores n stores₂ ++ init, final, ?_, hfinal, fun store hstore => ?_⟩
      · rw [anonymousStores_append, heq, List.append_assoc]
      · rcases List.mem_append.mp hstore with hstore | hstore
        · exact hstores₂ store hstore
        · exact hinit store hstore
  | found h h' hstores₁ =>
    cases h₂ with
    | absent hnone => exact absurd hnone h'
    | last hnone => exact absurd hnone h'
    | found _ h'' hstores₂ =>
      refine .found h h'' fun store hstore => ?_
      rw [anonymousStores_append] at hstore
      rcases List.mem_append.mp hstore with hstore | hstore
      · exact hstores₂ store hstore
      · exact hstores₁ store hstore

theorem Orders.congr (h : Orders n tables tables' stores)
    (hstores : anonymousStores n stores' = anonymousStores n stores) : Orders n tables tables' stores' := by
  cases h with
  | absent h h' heq => exact .absent h h' (hstores.trans heq)
  | last h h' heq => exact .last h h' (hstores ▸ heq)
  | found h h' heq => exact .found h h' (hstores ▸ heq)

theorem anonymousStores_eq_nil (h : ∀ store ∈ stores, ¬IsAnonymousOf n store) : anonymousStores n stores = [] :=
  List.filter_eq_nil_iff.mpr fun store hstore => by simpa using h store hstore

theorem Marks.orders {insideLoop : Bool} {level level' : Finset String}
    (h : Marks insideLoop tables level store store' tables' level')
    (hn : ∀ v, n ≠ cmpKey v) : Orders n tables tables' [store'] := by
  by_cases hanonymous : IsAnonymousOf n store
  · have heq : anonymousStores n [store'] = [store'] :=
      List.filter_cons_of_pos (by simpa using h.marked.isAnonymousOf_iff.mpr hanonymous)
    obtain ⟨hsize, ha, rfl⟩ := hanonymous
    cases h with
    | empty _ hempty => simp [hsize] at hempty
    | anonymous _ _ visited hv =>
      obtain ⟨-, -, ⟨info, hlookup, -, hstatus, htables⟩ | ⟨hlookup, hstatus, htables⟩⟩ :=
        visitAnonymous_eq hv
      · rw [htables]
        refine .found (by simp [hlookup]) (by simp [hlookup]) ?_
        rw [heq]
        simpa [withStatus] using hstatus
      · rw [htables]
        exact .last hlookup (by simp) ⟨[], _, heq, hstatus, by simp⟩
    | known _ ha' => simp [ha] at ha'
    | unknown _ ha' => simp [ha] at ha'
  · have heq : anonymousStores n [store'] = [] := by
      refine anonymousStores_eq_nil fun s hs hs' => ?_
      obtain rfl := List.mem_singleton.mp hs
      exact hanonymous (h.marked.isAnonymousOf_iff.mp hs')
    have hlookup : tables'.assignmentStatus.lookup n = tables.assignmentStatus.lookup n := by
      cases h with
      | empty => rfl
      | anonymous hsize ha visited hv =>
        obtain ⟨-, -, ⟨_, -, -, -, htables⟩ | ⟨-, -, htables⟩⟩ := visitAnonymous_eq hv
        · rw [htables]
        · have hne : n ≠ store.cmpName := fun heq => hanonymous ⟨hsize, ha, heq.symm⟩
          rw [htables]
          exact AList.lookup_insert_ne hne
      | known _ _ _ v _ visited hvisited =>
        rw [← hvisited]
        exact visitKnown_lookup_of_ne _ (hn v)
      | unknown => rfl
    by_cases h : tables.assignmentStatus.lookup n = none
    · exact .absent h (hlookup.trans h) heq
    · exact .found h (by rwa [hlookup]) (by simp [heq])

theorem exists_marked (h : List.Forall₂ Marked stores stores')
    (hmem : store' ∈ stores') : ∃ store ∈ stores, Marked store store' := by
  induction h with
  | nil => simp at hmem
  | @cons store _ _ _ hmarked _ ih =>
    rcases List.mem_cons.mp hmem with rfl | hmem
    · exact ⟨store, List.mem_cons_self .., hmarked⟩
    · obtain ⟨s, hs, hmarked'⟩ := ih hmem
      exact ⟨s, List.mem_cons_of_mem _ hs, hmarked'⟩

/-- The visit adds no store of `n`. -/
theorem not_isAnonymousOf_of_marked (h : List.Forall₂ Marked stores stores')
    (hstores : ∀ store ∈ stores, ¬IsAnonymousOf n store) : ∀ store ∈ stores', ¬IsAnonymousOf n store := by
  intro store' hmem hanonymous
  obtain ⟨store, hstore, hmarked⟩ := exists_marked h hmem
  exact hstores store hstore (hmarked.isAnonymousOf_iff.mp hanonymous)

mutual

theorem Visits.orders (hn : ∀ v, n ≠ cmpKey v) : ∀ (instruction : Instruction)
    {instruction' : Instruction} {insideLoop : Bool} {tables tables' : Tables}
    {level level' : Finset String}, Visits insideLoop tables level instruction instruction' tables' level' →
    Instruction.NotSplit n instruction → Orders n tables tables' instruction'.inputStores
  | .branch _ ifBranch elseBranch, _, _, _, _, _, _, @Visits.branch _ _ _ _ _ ifBranch' _ elseBranch' _ _ _ _
      hif helse, ⟨hsplit₁, hsplit₂, hone⟩ => by
    have h := (orders_of_visitFromEnd hn ifBranch hif hsplit₁).trans
      (orders_of_visitFromEnd hn elseBranch helse hsplit₂)
    refine h.congr ?_
    show anonymousStores n (listInputStores ifBranch' ++ listInputStores elseBranch') = _
    rw [anonymousStores_append, anonymousStores_append]
    rcases hone with hone | hone
    · rw [anonymousStores_eq_nil (not_isAnonymousOf_of_marked (marked_of_visitFromEnd ifBranch hif) hone)]
      simp
    · rw [anonymousStores_eq_nil
        (not_isAnonymousOf_of_marked (marked_of_visitFromEnd elseBranch helse) hone)]
      simp
  | .loop _ body, _, _, _, _, _, _, .loop _ hbody, hsplit => orders_of_visitFromEnd hn body hbody hsplit
  | instruction, instruction', _, tables, _, _, _, .skip hdirect hdirect' hstore hstore', _ => by
    rw [hdirect'.inputStores_eq, hstore']
    exact Orders.refl n tables rfl
  | instruction, instruction', _, _, _, _, _, .mark hdirect hdirect' hstore hstore' hmarks, _ => by
    rw [hdirect'.inputStores_eq, hstore']
    exact hmarks.orders hn

theorem orders_of_visitFromEnd (hn : ∀ v, n ≠ cmpKey v) : ∀ (code : List Instruction)
    {code' : List Instruction} {insideLoop : Bool} {tables tables' : Tables} {level' : Finset String},
    visitFromEnd insideLoop tables code = some (code', tables', level') → ListNotSplit n code →
    Orders n tables tables' (listInputStores code')
  | [], code', _, tables, tables', level', h, _ => by
    simp only [visitFromEnd, Option.some.injEq, Prod.mk.injEq] at h
    obtain ⟨rfl, rfl, rfl⟩ := h
    exact Orders.refl n tables rfl
  | instruction :: instructions, code', _, tables, tables', level', h, ⟨hfirst', hrest'⟩ => by
    obtain ⟨instruction', instructions', tables₁, level₁, rfl, hrest, hfirst⟩ := visitFromEnd_cons h
    exact (orders_of_visitFromEnd hn instructions hrest hrest').trans
      (Visits.orders hn instruction (visits_of_eq hfirst) hfirst')

end

/-! ## The assertion -/

/-- Only the components with a known address are waiting for a store at the top level. -/
def OnlyKnown (tables : Tables) : Prop :=
  ∀ key info, tables.assignmentStatus.lookup key = some info → info.foundLast = false →
    ∃ v, key = cmpKey v

theorem OnlyKnown.insert (h : OnlyKnown tables) {key : String} {info : LastInfo}
    (hkey : info.foundLast = false → ∃ v, key = cmpKey v) :
    OnlyKnown { tables with assignmentStatus := tables.assignmentStatus.insert key info } := by
  intro key' info' hlookup hfound
  by_cases hne : key' = key
  · rw [hne, AList.lookup_insert, Option.some.injEq] at hlookup
    obtain rfl := hlookup
    rw [hne]
    exact hkey hfound
  · rw [AList.lookup_insert_ne hne] at hlookup
    exact h key' info' hlookup hfound

theorem OnlyKnown.visitAnonymous (h : OnlyKnown tables) (level : Finset String) (hn : ∀ v, n ≠ cmpKey v) :
    ∃ visited, visitAnonymous tables level n = some visited ∧ OnlyKnown visited.tables := by
  unfold IrProcessing.visitAnonymous
  cases hlookup : tables.assignmentStatus.lookup n with
  | none => exact ⟨_, rfl, h.insert fun hfound => by simp at hfound⟩
  | some info =>
    cases hfound : info.foundLast with
    | true => exact ⟨⟨.noLast, false, tables, level⟩, by simp [hfound], h⟩
    | false =>
      obtain ⟨v, heq⟩ := h n info hlookup hfound
      exact absurd heq (hn v)

theorem OnlyKnown.visitKnown (h : OnlyKnown tables) (insideLoop : Bool) (level : Finset String) (n : String) (v : ℕ) :
    OnlyKnown (visitKnown insideLoop tables level n (cmpKey v)).tables := by
  unfold IrProcessing.visitKnown
  repeat' split
  all_goals first | exact h | exact h.insert fun _ => ⟨v, rfl⟩

theorem OnlyKnown.visitInput (h : OnlyKnown tables) (insideLoop : Bool) (level : Finset String)
    (cmpAddress : Instruction) {isAnonymous : Bool} (hn : isAnonymous = true → ∀ v, n ≠ cmpKey v) :
    ∃ visited, visitInput insideLoop tables level cmpAddress isAnonymous n = some visited ∧
      OnlyKnown visited.tables := by
  cases isAnonymous with
  | true => exact h.visitAnonymous level (hn rfl)
  | false =>
    by_cases hknown : ∃ parseAs v, cmpAddress = .value parseAs v
    · obtain ⟨parseAs, v, rfl⟩ := hknown
      exact ⟨_, visitInput_eq_value .., h.visitKnown insideLoop level n v⟩
    · exact ⟨_, visitInput_eq_unknown _ _ _ (fun parseAs v heq => hknown ⟨parseAs, v, heq⟩) _, h⟩

theorem OnlyKnown.visitAddressType (h : OnlyKnown tables)
    (insideLoop : Bool) (level : Finset String) (context : SizeOption) (srcContext : Option SizeOption)
    (xtype : AddressType)
    (hn : ∀ store, xtype.inputStore context srcContext = some store → store.isAnonymous = true →
      ∀ v, store.cmpName ≠ cmpKey v) :
    ∃ xtype' tables' level', visitAddressType insideLoop (alwaysEmpty context) tables level xtype =
      some (xtype', tables', level') ∧ OnlyKnown tables' := by
  cases xtype with
  | var => exact ⟨_, _, _, rfl, h⟩
  | signal => exact ⟨_, _, _, rfl, h⟩
  | subcmpSignal cmpAddress isOutput inputInformation isAnonymous cmpName =>
    cases inputInformation with
    | noInput => exact ⟨_, _, _, rfl, h⟩
    | input status needsDecrement =>
      cases hempty : alwaysEmpty context with
      | true => exact ⟨_, _, _, rfl, h⟩
      | false =>
        obtain ⟨visited, hvisited, hknown⟩ := h.visitInput insideLoop level cmpAddress (hn _ rfl)
        simp only [IrProcessing.visitAddressType, Bool.false_eq_true, if_false]
        exact ⟨_, _, _, by rw [hvisited]; rfl, hknown⟩

mutual

theorem OnlyKnown.visitInstruction : ∀ (instruction : Instruction) {tables : Tables},
    OnlyKnown tables → ∀ (insideLoop : Bool) (level : Finset String),
    (∀ store ∈ instruction.inputStores, store.isAnonymous = true → ∀ v, store.cmpName ≠ cmpKey v) →
    ∃ instruction' tables' level', visitInstruction insideLoop tables level instruction =
      some (instruction', tables', level') ∧ OnlyKnown tables'
  | .branch cond ifBranch elseBranch, tables, h, insideLoop, level, hn => by
    obtain ⟨ifBranch', tables₁, level₁, hif, h₁⟩ := OnlyKnown.visitFromEnd ifBranch h true
      fun s hs => hn s (List.mem_append_left _ hs)
    obtain ⟨elseBranch', tables₂, level₂, helse, h₂⟩ := OnlyKnown.visitFromEnd elseBranch h₁ true
      fun s hs => hn s (List.mem_append_right _ hs)
    simp only [IrProcessing.visitInstruction]
    exact ⟨_, _, _, by rw [hif]; simp only [Option.bind_eq_bind, Option.bind_some]; rw [helse]; rfl, h₂⟩
  | .loop continueCondition body, tables, h, insideLoop, level, hn => by
    obtain ⟨body', tables₁, level₁, hbody, h₁⟩ := OnlyKnown.visitFromEnd body h true hn
    simp only [IrProcessing.visitInstruction]
    exact ⟨_, _, _, by rw [hbody]; rfl, h₁⟩
  | .store context srcContext destAddressType dest src, tables, h, insideLoop, level, hn => by
    obtain ⟨destAddressType', tables', level', hvisit, h'⟩ := h.visitAddressType insideLoop level context
      (some srcContext) destAddressType fun s hs => hn s (Option.mem_toList.mpr hs)
    simp only [IrProcessing.visitInstruction]
    exact ⟨_, _, _, by rw [hvisit]; rfl, h'⟩
  | .call symbol arguments .intermediate, tables, h, insideLoop, level, hn => ⟨_, _, _, rfl, h⟩
  | .call symbol arguments (.final context destAddressType dest), tables, h, insideLoop, level, hn => by
    obtain ⟨destAddressType', tables', level', hvisit, h'⟩ := h.visitAddressType insideLoop level context
      none destAddressType fun s hs => hn s (Option.mem_toList.mpr hs)
    simp only [IrProcessing.visitInstruction]
    exact ⟨_, _, _, by rw [hvisit]; rfl, h'⟩
  | .value .., tables, h, _, _, _ => ⟨_, _, _, rfl, h⟩
  | .load .., tables, h, _, _, _ => ⟨_, _, _, rfl, h⟩
  | .compute .., tables, h, _, _, _ => ⟨_, _, _, rfl, h⟩
  | .ret .., tables, h, _, _, _ => ⟨_, _, _, rfl, h⟩
  | .assert .., tables, h, _, _, _ => ⟨_, _, _, rfl, h⟩
  | .log .., tables, h, _, _, _ => ⟨_, _, _, rfl, h⟩
  | .createCmp .., tables, h, _, _, _ => ⟨_, _, _, rfl, h⟩

/-- The assertion holds if no anonymous component has the key of a component with a known address. -/
theorem OnlyKnown.visitFromEnd : ∀ (code : List Instruction) {tables : Tables},
    OnlyKnown tables → ∀ (insideLoop : Bool),
    (∀ store ∈ listInputStores code, store.isAnonymous = true → ∀ v, store.cmpName ≠ cmpKey v) →
    ∃ code' tables' level', visitFromEnd insideLoop tables code = some (code', tables', level') ∧
      OnlyKnown tables'
  | [], tables, h, insideLoop, hn => ⟨_, _, _, rfl, h⟩
  | instruction :: instructions, tables, h, insideLoop, hn => by
    obtain ⟨instructions', tables₁, level₁, hrest, h₁⟩ := OnlyKnown.visitFromEnd instructions h insideLoop
      fun s hs => hn s (List.mem_append_right _ hs)
    obtain ⟨instruction', tables₂, level₂, hfirst, h₂⟩ := OnlyKnown.visitInstruction instruction h₁
      insideLoop level₁ fun s hs => hn s (List.mem_append_left _ hs)
    simp only [IrProcessing.visitFromEnd]
    exact ⟨_, _, _, by
      rw [hrest]
      simp only [Option.bind_eq_bind, Option.bind_some]
      rw [hfirst]
      rfl, h₂⟩

end

end Circom.IrProcessing
