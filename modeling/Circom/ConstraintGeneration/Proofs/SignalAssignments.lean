import Circom.ConstraintGeneration.AssignmentUtils
import Circom.Lib.Branches
import Circom.ProgramStructure.Proofs.MutReferences

/-!
# Assignments under conditions

A cell keeps one list of conditions. It stands for the assignments of the cell as long as no branch of a
conditional is entered again after its opposite.
-/

namespace Circom.ConstraintGeneration

open Circom.Ast (Meta)
open Circom.Lib (Path Takes Opposite NoReentry Remembers Within cellPosition)
open Circom.ProgramStructure (MemorySlice)

variable {assignment final state : AssignmentState} {assignments : List AssignmentState}
variable {slice slice' : SignalSlice}

/-! ## One cell -/

/-- The lists agree, or they differ first behind a common beginning. -/
theorem compareConditions_cases (sameLength : Bool) (condOld condNew : List (ℕ × Bool)) :
    (compareConditions sameLength condOld condNew).isSubset = true ∨
      ∃ pre old rest new rest', condOld = pre ++ old :: rest ∧ condNew = pre ++ new :: rest' ∧
        old ≠ new ∧ compareConditions sameLength condOld condNew =
          ⟨false, decide (old.1 = new.1 ∧ (rest = [] ∨ rest' = []) ∧ sameLength = true),
            decide (old.1 = new.1)⟩ := by
  induction condOld generalizing condNew with
  | nil => exact Or.inl rfl
  | cons old condOld ih =>
    cases condNew with
    | nil => exact Or.inl rfl
    | cons new condNew =>
      by_cases heq : old = new
      · subst heq
        have hstep : compareConditions sameLength (old :: condOld) (old :: condNew) =
            compareConditions sameLength condOld condNew := by simp [compareConditions]
        rw [hstep]
        rcases ih condNew with h | ⟨pre, o, rest, n, rest', rfl, rfl, hne, h⟩
        · exact Or.inl h
        · exact Or.inr ⟨old :: pre, o, rest, n, rest', rfl, rfl, hne, h⟩
      · refine Or.inr ⟨[], old, condOld, new, condNew, rfl, rfl, heq, ?_⟩
        simp [compareConditions, heq]

/-- What a cell with conditions can become. -/
theorem assignCell_mightAssigned {condOld : List (ℕ × Bool)} {info : Option Meta}
    (h : assignCell assignment (.mightAssigned condOld info) = some (.ok state)) :
    ∃ condNew infoNew pre id branch rest rest', assignment = .mightAssigned condNew infoNew ∧
      condOld = pre ++ (id, branch) :: rest ∧ condNew = pre ++ (id, !branch) :: rest' ∧
      ((rest = [] ∧ rest' = [] ∧ pre = [] ∧ state = .assigned infoNew) ∨
        (rest = [] ∧ rest' = [] ∧ pre ≠ [] ∧ state = .mightAssigned pre infoNew) ∨
        state = .mightAssigned condNew infoNew) := by
  have herror : ∀ r, multipleAssignments info = some r → r ≠ .ok state := by
    rintro r hr rfl
    cases info <;> cases hr
  cases assignment with
  | noAssigned => cases h
  | assigned infoNew => exact absurd rfl (herror _ h)
  | mightAssigned condNew infoNew =>
    simp only [assignCell] at h
    rcases compareConditions_cases (condOld.length = condNew.length) condOld condNew with
      hsubset | ⟨pre, old, rest, new, rest', rfl, rfl, hne, hcompare⟩
    · rw [if_pos hsubset] at h
      exact absurd rfl (herror _ h)
    · rw [hcompare] at h
      simp only [Bool.false_eq_true, if_false, decide_eq_true_eq] at h
      obtain ⟨id, branch⟩ := old
      obtain ⟨id', branch'⟩ := new
      by_cases hid : id = id'
      · subst hid
        obtain rfl : branch' = !branch := by
          cases branch <;> cases branch' <;> simp_all
        refine ⟨_, infoNew, pre, id, branch, rest, rest', rfl, rfl, rfl, ?_⟩
        simp only [true_and, if_true] at h
        have hnil (hrest : rest = [] ∨ rest' = [])
            (hlen : (pre ++ (id, branch) :: rest).length = (pre ++ (id, !branch) :: rest').length) :
            rest = [] ∧ rest' = [] := by
          simp only [List.length_append, List.length_cons] at hlen
          rcases hrest with rfl | rfl
          · exact ⟨rfl, List.length_eq_zero_iff.mp (by simpa using hlen.symm)⟩
          · exact ⟨List.length_eq_zero_iff.mp (by simpa using hlen), rfl⟩
        split_ifs at h with hlast hlength
        · obtain ⟨rfl, rfl⟩ := hnil hlast.1 hlast.2
          have hpre : pre = [] := List.length_eq_zero_iff.mp (by simpa using hlength)
          cases h
          exact Or.inl ⟨rfl, rfl, hpre, rfl⟩
        · obtain ⟨rfl, rfl⟩ := hnil hlast.1 hlast.2
          have hpre : pre ≠ [] := by
            rintro rfl
            exact hlength rfl
          cases h
          refine Or.inr (Or.inl ⟨rfl, rfl, hpre, ?_⟩)
          simp
        · cases h
          exact Or.inr (Or.inr rfl)
      · simp only [hid, false_and, if_false] at h
        exact absurd rfl (herror _ h)

/-- The conditions under which a call assigns the cells. -/
def AssignmentState.conditions : AssignmentState → Path ℕ
  | .mightAssigned conditions _ => conditions
  | _ => []

/-- Neither assignment is unconditional, and a conditional has them in opposite branches. -/
def Exclusive (a b : AssignmentState) : Prop :=
  ∃ conditions info conditions' info', a = .mightAssigned conditions info ∧
    b = .mightAssigned conditions' info' ∧ Opposite conditions conditions'

/-- Every valuation of the conditions makes exactly one of the assignments. -/
def ExactlyOne (assignments : List AssignmentState) : Prop :=
  ∀ v : ℕ → Bool, assignments.countP (fun a => Takes v a.conditions) = 1

/-- The assignments of a cell, one after the other, none of which is an error. -/
def assignAll (state : AssignmentState) : List AssignmentState → Option AssignmentState
  | [] => some state
  | assignment :: assignments => do
    match ← assignCell assignment state with
    | .ok state => assignAll state assignments
    | .error _ => none

theorem assignAll_concat :
    assignAll state (assignments ++ [assignment]) = some final ↔
      ∃ middle, assignAll state assignments = some middle ∧
        assignCell assignment middle = some (.ok final) := by
  induction assignments generalizing state with
  | nil =>
    simp only [List.nil_append, assignAll, Option.some.injEq, exists_eq_left']
    cases assignCell assignment state with
    | none => simp
    | some r => cases r <;> simp
  | cons a assignments ih =>
    simp only [List.cons_append, assignAll]
    cases assignCell a state with
    | none => simp
    | some r =>
      cases r with
      | error e => simp
      | ok state' => exact ih

/-- What the state of a cell says about the assignments that led to it. -/
def Records (assignments : List AssignmentState) : AssignmentState → Prop
  | .noAssigned => assignments = []
  | .assigned _ => assignments.Pairwise Exclusive ∧ ExactlyOne assignments
  | .mightAssigned conditions _ =>
    (∀ a ∈ assignments, ∃ conditions info, a = .mightAssigned conditions info) ∧
      Remembers conditions (assignments.map AssignmentState.conditions)

theorem pairwise_exclusive (h : ∀ a ∈ assignments, ∃ conditions info, a = .mightAssigned conditions info)
    (hopposite : (assignments.map AssignmentState.conditions).Pairwise Opposite) : assignments.Pairwise Exclusive := by
  rw [List.pairwise_map] at hopposite
  refine hopposite.imp_of_mem fun {a b} ha hb hab => ?_
  obtain ⟨conditions, info, rfl⟩ := h a ha
  obtain ⟨conditions', info', rfl⟩ := h b hb
  exact ⟨conditions, info, conditions', info', rfl, rfl, hab⟩

theorem Records.exclusive (h : Records assignments state) : assignments.Pairwise Exclusive := by
  cases state with
  | noAssigned =>
    rw [show assignments = [] from h]
    exact List.Pairwise.nil
  | assigned info => exact h.1
  | mightAssigned conditions info => exact pairwise_exclusive h.1 h.2.opposite

theorem records_first (assignment : AssignmentState) (h : assignment ≠ .noAssigned) :
    Records [assignment] assignment := by
  cases assignment with
  | noAssigned => exact absurd rfl h
  | assigned info => exact ⟨List.pairwise_singleton _ _, fun v => by simp [AssignmentState.conditions, Takes]⟩
  | mightAssigned conditions info =>
    refine ⟨fun a ha => ⟨conditions, info, List.mem_singleton.mp ha⟩, ?_⟩
    exact Remembers.first conditions

/-- One more assignment, which enters no branch again. -/
theorem Records.step (h : Records assignments state) (hassignment : assignment ≠ .noAssigned)
    (hstep : assignCell assignment state = some (.ok final))
    (hreentry : NoReentry ((assignments ++ [assignment]).map AssignmentState.conditions)) :
    Records (assignments ++ [assignment]) final := by
  cases state with
  | noAssigned =>
    rw [show assignments = [] from h]
    cases hstep
    exact records_first _ hassignment
  | assigned info => cases info <;> cases hstep
  | mightAssigned condOld info =>
    obtain ⟨hconditional, hremembers⟩ := h
    obtain ⟨condNew, infoNew, pre, id, branch, rest, rest', rfl, rfl, rfl, hfinal⟩ :=
      assignCell_mightAssigned hstep
    rw [List.map_append] at hreentry
    have hall : ∀ a ∈ assignments ++ [.mightAssigned (pre ++ (id, !branch) :: rest') infoNew],
        ∃ conditions info, a = .mightAssigned conditions info := by
      intro a ha
      rcases List.mem_append.mp ha with ha | ha
      · exact hconditional a ha
      · exact ⟨_, _, List.mem_singleton.mp ha⟩
    rcases hfinal with ⟨rfl, rfl, rfl, rfl⟩ | ⟨rfl, rfl, hpre, rfl⟩ | rfl
    · have hmerge := hremembers.merge hreentry
      refine ⟨pairwise_exclusive hall ?_, fun v => ?_⟩
      · rw [List.map_append]
        exact hmerge.opposite
      · have honce := hmerge.once v (by simp [Takes])
        rw [List.countP_append, List.countP_map] at honce
        rw [List.countP_append]
        exact honce
    · refine ⟨hall, ?_⟩
      rw [List.map_append]
      exact hremembers.merge hreentry
    · refine ⟨hall, ?_⟩
      rw [List.map_append]
      exact hremembers.overwrite (by simp [AssignmentState.conditions]) hreentry

/-- The assignments of a cell that is not assigned at first. -/
theorem records_of_assignAll
    (h : assignAll .noAssigned assignments = some final) (hassigns : ∀ a ∈ assignments, a ≠ .noAssigned)
    (hreentry : NoReentry (assignments.map AssignmentState.conditions)) : Records assignments final := by
  induction assignments using List.reverseRecOn generalizing final with
  | nil =>
    cases h
    exact rfl
  | append_singleton assignments assignment ih =>
    obtain ⟨middle, hmiddle, hstep⟩ := assignAll_concat.mp h
    have hbefore : NoReentry (assignments.map AssignmentState.conditions) := by
      rw [List.map_append] at hreentry
      exact (List.triplewise_append.mp hreentry).1
    exact (ih hmiddle (fun a ha => hassigns a (List.mem_append_left _ ha)) hbefore).step
      (hassigns assignment (by simp)) hstep hreentry

/-! ## One call -/

/-- The cells with a reference have made a step each, the others are as before. -/
structure Steps (assignment : AssignmentState) (slice slice' : SignalSlice) (cells : List ℕ) : Prop where
  route : slice'.route = slice.route
  length : slice'.values.length = slice.values.length
  step (cell : ℕ) (h : cell ∈ cells) : ∃ before after, slice.values[cell]? = some before ∧
    slice'.values[cell]? = some after ∧ assignCell assignment before = some (.ok after)
  frame (cell : ℕ) (h : cell ∉ cells) : slice'.values[cell]? = slice.values[cell]?

theorem steps_of_assignCells {cells : List ℕ} (hnodup : cells.Nodup)
    (h : assignCells assignment slice cells = some (slice', .ok ())) : Steps assignment slice slice' cells := by
  induction cells generalizing slice with
  | nil =>
    cases h
    exact ⟨rfl, rfl, (fun _ h => by cases h), fun _ _ => rfl⟩
  | cons cell cells ih =>
    obtain ⟨hcell, hnodup⟩ := List.nodup_cons.mp hnodup
    rw [assignCells] at h
    obtain ⟨before, hbefore, h⟩ := Option.bind_eq_some_iff.mp h
    obtain ⟨result, hresult, h⟩ := Option.bind_eq_some_iff.mp h
    cases result with
    | error e => cases h
    | ok after =>
      have hrest := ih hnodup h
      have hlt := (List.getElem?_eq_some_iff.mp hbefore).1
      constructor
      case route => exact hrest.route
      case length => rw [hrest.length, List.length_set]
      case step =>
        intro c hc
        rcases List.mem_cons.mp hc with rfl | hc
        · refine ⟨before, after, hbefore, ?_, hresult⟩
          rw [hrest.frame c hcell]
          exact List.getElem?_set_self hlt
        · have hne : cell ≠ c := by
            rintro rfl
            exact hcell hc
          obtain ⟨before', after', h1, h2, h3⟩ := hrest.step c hc
          refine ⟨before', after', ?_, h2, h3⟩
          rwa [List.getElem?_set_ne hne] at h1
      case frame =>
        intro c hc
        rw [List.mem_cons, not_or] at hc
        obtain ⟨hne, hc⟩ := hc
        rw [hrest.frame c hc]
        exact List.getElem?_set_ne (Ne.symm hne)

theorem steps_of_performSignalAssignment {arrayAccess newRoute : List ℕ} (hwf : slice.WellFormed)
    (h : performSignalAssignment slice arrayAccess newRoute assignment = some (slice', .ok ())) :
    ∃ cells, slice.accessValuesByMutReference arrayAccess = .ok cells ∧
      Steps assignment slice slice' cells := by
  unfold performSignalAssignment at h
  obtain ⟨values, -, h⟩ := Option.bind_eq_some_iff.mp h
  cases values with
  | error e => cases h
  | ok previous =>
    simp only at h
    cases hdims : previous.checkCorrectDims [] (MemorySlice.newWithRoute newRoute assignment) true with
    | error e =>
      rw [hdims] at h
      cases h
    | ok _ =>
      rw [hdims] at h
      cases hcells : slice.accessValuesByMutReference arrayAccess with
      | error e =>
        rw [hcells] at h
        cases h
      | ok cells =>
        rw [hcells] at h
        exact ⟨cells, rfl, steps_of_assignCells (MemorySlice.nodup_references hwf hcells) h⟩

theorem Steps.wellFormed {cells : List ℕ}
    (h : Steps assignment slice slice' cells) (hwf : slice.WellFormed) : slice'.WellFormed := by
  rw [MemorySlice.WellFormed, h.route, h.length]
  exact hwf

/-! ## Sequences of calls -/

/-- The arguments of a call of `perform_signal_assignment`. -/
structure AssignmentCall where
  arrayAccess : List ℕ
  newRoute : List ℕ
  state : AssignmentState
  assigns : state ≠ .noAssigned

/-- The calls one after the other, all of which return `Ok`. -/
def performAssignments (slice : SignalSlice) : List AssignmentCall → Option SignalSlice
  | [] => some slice
  | call :: calls => do
    match ← performSignalAssignment slice call.arrayAccess call.newRoute call.state with
    | (slice, .ok ()) => performAssignments slice calls
    | (_, .error _) => none

/-- The assignments of the cell with an index vector. -/
def assignmentsOf (calls : List AssignmentCall) (index : List ℕ) : List AssignmentState :=
  (calls.filter fun call => call.arrayAccess <+: index).map AssignmentCall.state

/-- Every cell takes the steps of the calls that cover it. -/
theorem assignAll_of_performAssignments {final : SignalSlice} {calls : List AssignmentCall} (hwf : slice.WellFormed)
    (h : performAssignments slice calls = some final) {index : List ℕ} (hindex : Within index slice.route)
    (hstate : slice.values[cellPosition slice.route index]? = some state) :
    final.route = slice.route ∧ ∃ last, final.values[cellPosition slice.route index]? = some last ∧
      assignAll state (assignmentsOf calls index) = some last := by
  induction calls generalizing slice state with
  | nil =>
    cases h
    exact ⟨rfl, state, hstate, rfl⟩
  | cons call calls ih =>
    rw [performAssignments] at h
    obtain ⟨⟨slice', result⟩, hcall, h⟩ := Option.bind_eq_some_iff.mp h
    cases result with
    | error e => cases h
    | ok _ =>
      obtain ⟨cells, hcells, hsteps⟩ := steps_of_performSignalAssignment hwf hcall
      have hmem := MemorySlice.mem_references_iff hwf hcells hindex
      have hwithin : Within index slice'.route := by rwa [hsteps.route]
      by_cases hcovers : call.arrayAccess <+: index
      · obtain ⟨before, after, hbefore, hafter, hstep⟩ := hsteps.step _ (hmem.mpr hcovers)
        rw [hstate] at hbefore
        cases hbefore
        rw [← hsteps.route] at hafter
        obtain ⟨hroute, last, hlast, hall⟩ := ih (hsteps.wellFormed hwf) h hwithin hafter
        rw [hsteps.route] at hroute hlast
        refine ⟨hroute, last, hlast, ?_⟩
        rw [assignmentsOf, List.filter_cons_of_pos (by simpa using hcovers), List.map_cons, assignAll,
          hstep]
        exact hall
      · have hafter := hsteps.frame _ (fun hc => hcovers (hmem.mp hc))
        rw [hstate, ← hsteps.route] at hafter
        obtain ⟨hroute, last, hlast, hall⟩ := ih (hsteps.wellFormed hwf) h hwithin hafter
        rw [hsteps.route] at hroute hlast
        refine ⟨hroute, last, hlast, ?_⟩
        rw [assignmentsOf, List.filter_cons_of_neg (by simpa using hcovers)]
        exact hall

/-- No call enters a branch again that an earlier call of the same cell has left. -/
def EntersOnce (calls : List AssignmentCall) (index : List ℕ) : Prop :=
  NoReentry ((assignmentsOf calls index).map AssignmentState.conditions)

/-- Two calls with a common cell are in opposite branches, and a cell that ends as assigned is assigned
exactly once in every run. -/
theorem assignedOncePerPath {route : List ℕ} {calls : List AssignmentCall} {final : SignalSlice}
    (h : performAssignments (MemorySlice.newWithRoute route .noAssigned) calls = some final)
    {index : List ℕ} (hindex : Within index route) (honce : EntersOnce calls index) :
    (assignmentsOf calls index).Pairwise Exclusive ∧
      ((∃ info, final.values[cellPosition route index]? = some (.assigned info)) →
        ExactlyOne (assignmentsOf calls index)) := by
  have hwf := MemorySlice.wellFormed_newWithRoute route AssignmentState.noAssigned
  have hlt : cellPosition route index < (MemorySlice.newWithRoute route AssignmentState.noAssigned).values.length := by
    rw [hwf]
    exact Lib.cellPosition_lt hindex
  have hstate : (MemorySlice.newWithRoute route AssignmentState.noAssigned).values[cellPosition route index]? =
      some .noAssigned := by
    rw [MemorySlice.newWithRoute, List.getElem?_replicate, if_pos (by simpa [MemorySlice.newWithRoute] using hlt)]
  obtain ⟨-, last, hlast, hall⟩ := assignAll_of_performAssignments hwf h hindex hstate
  have hassigns : ∀ a ∈ assignmentsOf calls index, a ≠ .noAssigned := by
    intro a ha
    obtain ⟨call, -, rfl⟩ := List.mem_map.mp ha
    exact call.assigns
  have hrecords := records_of_assignAll hall hassigns honce
  refine ⟨hrecords.exclusive, ?_⟩
  rintro ⟨info, hinfo⟩
  rw [show cellPosition route index = cellPosition
    (MemorySlice.newWithRoute route AssignmentState.noAssigned).route index from rfl, hlast] at hinfo
  cases hinfo
  exact hrecords.2

/-- A call that assigns a whole signal under conditions. -/
def assignUnder (conditions : List (ℕ × Bool)) : AssignmentCall :=
  ⟨[], [], .mightAssigned conditions (some ⟨0, 0, none⟩), by simp⟩

theorem assignedOncePerPath_branches :
    (assignmentsOf [assignUnder [(0, true)], assignUnder [(0, false)]] []).Pairwise Exclusive ∧
      ((∃ info, [AssignmentState.assigned (some ⟨0, 0, none⟩)][cellPosition [] []]? =
        some (.assigned info)) →
        ExactlyOne (assignmentsOf [assignUnder [(0, true)], assignUnder [(0, false)]] [])) :=
  have h : performAssignments (MemorySlice.newWithRoute [] .noAssigned)
      [assignUnder [(0, true)], assignUnder [(0, false)]] =
        some ⟨[], [.assigned (some ⟨0, 0, none⟩)]⟩ := by decide
  assignedOncePerPath h (by decide) (by simp [EntersOnce, NoReentry, assignmentsOf, assignUnder])

/-- A branch that is entered a second time assigns the signal again. -/
theorem not_assignedOncePerPath :
    ¬ ∀ (route : List ℕ) (calls : List AssignmentCall) (final : SignalSlice) (index : List ℕ),
      performAssignments (MemorySlice.newWithRoute route .noAssigned) calls = some final →
      Within index route → (assignmentsOf calls index).Pairwise Exclusive := by
  intro h
  have hpairwise := h [] [assignUnder [(0, true), (1, true)], assignUnder [(0, false)],
    assignUnder [(0, true), (1, true)]] ⟨[], [.mightAssigned [(0, true), (1, true)] (some ⟨0, 0, none⟩)]⟩ []
    (by decide) (by decide)
  obtain ⟨hfirst, -⟩ := List.pairwise_cons.mp hpairwise
  obtain ⟨conditions, info, conditions', info', heq, heq', id, branch, hmem, hmem'⟩ :=
    hfirst (assignUnder [(0, true), (1, true)]).state (by decide)
  cases heq
  cases heq'
  simp only [List.mem_cons, Prod.mk.injEq, List.not_mem_nil, or_false] at hmem hmem'
  rcases hmem with ⟨rfl, rfl⟩ | ⟨rfl, rfl⟩ <;> simp at hmem'

end Circom.ConstraintGeneration
