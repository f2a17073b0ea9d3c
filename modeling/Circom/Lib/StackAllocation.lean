import Mathlib.Data.List.Basic
import Mathlib.Data.Nat.Notation

/-!
# Slots on a stack

A program reserves slots, ranges of cells, and accesses them. A cell belongs to the slot that has reserved it last.
In a program in which every slot is reserved above the slots that are live, no run accesses a cell of a slot after
another slot has reserved it.
-/

namespace Circom.Lib

/-- A range of cells. The sites of different declarations are different. -/
structure Slot where
  site : ℕ
  start : ℕ
  size : ℕ
  deriving DecidableEq, Repr

namespace Slot

def stop (slot : Slot) : ℕ := slot.start + slot.size

def Has (slot : Slot) (cell : ℕ) : Prop := slot.start ≤ cell ∧ cell < slot.stop

instance (slot : Slot) (cell : ℕ) : Decidable (slot.Has cell) := inferInstanceAs (Decidable (_ ∧ _))

/-- The slots have no common cell. -/
def Disjoint (slot slot' : Slot) : Prop := ∀ cell, slot.Has cell → ¬ slot'.Has cell

theorem start_le_stop (slot : Slot) : slot.start ≤ slot.stop := Nat.le_add_right _ _

theorem disjoint_of_le {slot slot' : Slot} (h : slot'.stop ≤ slot.start) : slot.Disjoint slot' :=
  fun cell hcell hcell' => absurd (Nat.lt_of_lt_of_le hcell'.2 h) (Nat.not_lt.mpr hcell.1)

end Slot

/-- The parts of a program that concern slots. A point carries the slots that are live there. -/
inductive SlotCode where
  | point (live : List Slot)
  | reserve (slot : Slot)
  | access (slot : Slot)
  | block (body : List SlotCode)
  | branch (ifBranch elseBranch : List SlotCode)
  | loop (cond body : List SlotCode)

inductive SlotEvent where
  | reserve (slot : Slot)
  | access (slot : Slot)
  deriving DecidableEq, Repr

/-- The events of a run, and whether it goes on behind the program. A run can stop anywhere. -/
inductive SlotRuns : List SlotCode → List SlotEvent → Bool → Prop
  | stop (code : List SlotCode) : SlotRuns code [] false
  | nil : SlotRuns [] [] true
  | point {live : List Slot} {rest : List SlotCode} {events : List SlotEvent} {finished : Bool}
    (h : SlotRuns rest events finished) : SlotRuns (.point live :: rest) events finished
  | reserve {slot : Slot} {rest : List SlotCode} {events : List SlotEvent} {finished : Bool}
    (h : SlotRuns rest events finished) : SlotRuns (.reserve slot :: rest) (.reserve slot :: events) finished
  | access {slot : Slot} {rest : List SlotCode} {events : List SlotEvent} {finished : Bool}
    (h : SlotRuns rest events finished) : SlotRuns (.access slot :: rest) (.access slot :: events) finished
  | blockStop {body rest : List SlotCode} {events : List SlotEvent} (h : SlotRuns body events false) :
    SlotRuns (.block body :: rest) events false
  | block {body rest : List SlotCode} {events events' : List SlotEvent} {finished : Bool}
    (h : SlotRuns body events true) (hrest : SlotRuns rest events' finished) :
    SlotRuns (.block body :: rest) (events ++ events') finished
  | ifStop {ifBranch elseBranch rest : List SlotCode} {events : List SlotEvent}
    (h : SlotRuns ifBranch events false) : SlotRuns (.branch ifBranch elseBranch :: rest) events false
  | ifBranch {ifBranch elseBranch rest : List SlotCode} {events events' : List SlotEvent} {finished : Bool}
    (h : SlotRuns ifBranch events true) (hrest : SlotRuns rest events' finished) :
    SlotRuns (.branch ifBranch elseBranch :: rest) (events ++ events') finished
  | elseStop {ifBranch elseBranch rest : List SlotCode} {events : List SlotEvent}
    (h : SlotRuns elseBranch events false) : SlotRuns (.branch ifBranch elseBranch :: rest) events false
  | elseBranch {ifBranch elseBranch rest : List SlotCode} {events events' : List SlotEvent} {finished : Bool}
    (h : SlotRuns elseBranch events true) (hrest : SlotRuns rest events' finished) :
    SlotRuns (.branch ifBranch elseBranch :: rest) (events ++ events') finished
  | condStop {cond body rest : List SlotCode} {events : List SlotEvent} (h : SlotRuns cond events false) :
    SlotRuns (.loop cond body :: rest) events false
  | loopEnd {cond body rest : List SlotCode} {events events' : List SlotEvent} {finished : Bool}
    (h : SlotRuns cond events true) (hrest : SlotRuns rest events' finished) :
    SlotRuns (.loop cond body :: rest) (events ++ events') finished
  | bodyStop {cond body rest : List SlotCode} {events events' : List SlotEvent}
    (h : SlotRuns cond events true) (hbody : SlotRuns body events' false) :
    SlotRuns (.loop cond body :: rest) (events ++ events') false
  | loop {cond body rest : List SlotCode} {events events' events'' : List SlotEvent} {finished : Bool}
    (h : SlotRuns cond events true) (hbody : SlotRuns body events' true)
    (hloop : SlotRuns (.loop cond body :: rest) events'' finished) :
    SlotRuns (.loop cond body :: rest) (events ++ (events' ++ events'')) finished

/-! ## Cells -/

/-- The site of the slot that has reserved a cell last. -/
abbrev Owners := ℕ → Option ℕ

namespace Owners

def reserve (owners : Owners) (slot : Slot) : Owners :=
  fun cell => if slot.Has cell then some slot.site else owners cell

/-- All cells of the slot belong to it. -/
def Owns (owners : Owners) (slot : Slot) : Prop := ∀ cell, slot.Has cell → owners cell = some slot.site

/-- The owners after a run. -/
def after : Owners → List SlotEvent → Owners
  | owners, [] => owners
  | owners, .reserve slot :: events => (owners.reserve slot).after events
  | owners, .access _ :: events => owners.after events

/-- Every access finds the cells that its slot has reserved. -/
def Intact : Owners → List SlotEvent → Prop
  | _, [] => True
  | owners, .reserve slot :: events => (owners.reserve slot).Intact events
  | owners, .access slot :: events => owners.Owns slot ∧ owners.Intact events

theorem after_append (owners : Owners) (events events' : List SlotEvent) :
    owners.after (events ++ events') = (owners.after events).after events' := by
  induction events generalizing owners with
  | nil => rfl
  | cons event events ih =>
    cases event with
    | reserve slot => exact ih (owners.reserve slot)
    | access slot => exact ih owners

theorem intact_append {owners : Owners} {events events' : List SlotEvent} :
    owners.Intact (events ++ events') ↔ owners.Intact events ∧ (owners.after events).Intact events' := by
  induction events generalizing owners with
  | nil => exact (and_iff_right trivial).symm
  | cons event events ih =>
    cases event with
    | reserve slot => exact ih
    | access slot => exact (and_congr_right fun _ => ih).trans and_assoc.symm

theorem owns_reserve (owners : Owners) (slot : Slot) : (owners.reserve slot).Owns slot :=
  fun _ hcell => if_pos hcell

theorem reserve_eq {owners : Owners} {slot : Slot} {cell : ℕ} (h : cell < slot.start) :
    owners.reserve slot cell = owners cell := if_neg fun hhas => absurd hhas.1 (Nat.not_le.mpr h)

end Owners

/-! ## Scopes -/

/-- Slots are reserved at or above the top of the stack and are live until the end of their block; a block, a branch
and the body of a loop leave the top as they have found it. -/
inductive WellScoped : List Slot → ℕ → List SlotCode → Prop
  | nil {live : List Slot} {top : ℕ} : WellScoped live top []
  | point {live points : List Slot} {top : ℕ} {rest : List SlotCode} (h : WellScoped live top rest) :
    WellScoped live top (.point points :: rest)
  | reserve {live : List Slot} {slot : Slot} {top : ℕ} {rest : List SlotCode} (hslot : top ≤ slot.start)
    (h : WellScoped (slot :: live) slot.stop rest) : WellScoped live top (.reserve slot :: rest)
  | access {live : List Slot} {slot : Slot} {top : ℕ} {rest : List SlotCode} (hslot : slot ∈ live)
    (h : WellScoped live top rest) : WellScoped live top (.access slot :: rest)
  | block {live : List Slot} {top : ℕ} {body rest : List SlotCode} (hbody : WellScoped live top body)
    (h : WellScoped live top rest) : WellScoped live top (.block body :: rest)
  | branch {live : List Slot} {top : ℕ} {ifBranch elseBranch rest : List SlotCode}
    (hif : WellScoped live top ifBranch) (helse : WellScoped live top elseBranch)
    (h : WellScoped live top rest) : WellScoped live top (.branch ifBranch elseBranch :: rest)
  | loop {live : List Slot} {top : ℕ} {cond body rest : List SlotCode} (hcond : WellScoped live top cond)
    (hbody : WellScoped live top body) (h : WellScoped live top rest) :
    WellScoped live top (.loop cond body :: rest)

/-- The live slots are below the top and have their cells. -/
def Owners.Holds (owners : Owners) (live : List Slot) (top : ℕ) : Prop :=
  ∀ slot ∈ live, slot.stop ≤ top ∧ owners.Owns slot

/-- What a run from a state in which the live slots have their cells does: it finds all slots that it accesses and
leaves the cells below the top alone. -/
def Owners.Safe (owners : Owners) (top : ℕ) (events : List SlotEvent) : Prop :=
  owners.Intact events ∧ ∀ cell < top, owners.after events cell = owners cell

namespace Owners

variable {owners : Owners} {live : List Slot} {top : ℕ} {events events' : List SlotEvent}

theorem Holds.after (h : owners.Holds live top) (hsafe : owners.Safe top events) :
    (owners.after events).Holds live top := by
  intro slot hslot
  obtain ⟨hstop, howns⟩ := h slot hslot
  refine ⟨hstop, fun cell hcell => ?_⟩
  rw [hsafe.2 cell (Nat.lt_of_lt_of_le hcell.2 hstop)]
  exact howns cell hcell

theorem Safe.append (h : owners.Safe top events) (h' : (owners.after events).Safe top events') :
    owners.Safe top (events ++ events') := by
  refine ⟨intact_append.mpr ⟨h.1, h'.1⟩, fun cell hcell => ?_⟩
  rw [after_append, h'.2 cell hcell, h.2 cell hcell]

theorem safe_nil : owners.Safe top [] := ⟨trivial, fun _ _ => rfl⟩

theorem Holds.reserve {slot : Slot} (h : owners.Holds live top) (hslot : top ≤ slot.start) :
    (owners.reserve slot).Holds (slot :: live) slot.stop := by
  refine List.forall_mem_cons.mpr ⟨⟨Nat.le_refl _, owners.owns_reserve slot⟩, fun other hother => ?_⟩
  obtain ⟨hstop, howns⟩ := h other hother
  refine ⟨Nat.le_trans hstop (Nat.le_trans hslot slot.start_le_stop), fun cell hcell => ?_⟩
  rw [reserve_eq (Nat.lt_of_lt_of_le hcell.2 (Nat.le_trans hstop hslot))]
  exact howns cell hcell

theorem Safe.reserve {slot : Slot} (hslot : top ≤ slot.start)
    (h : (owners.reserve slot).Safe slot.stop events) : owners.Safe top (.reserve slot :: events) := by
  refine ⟨h.1, fun cell hcell => ?_⟩
  have hlt : cell < slot.start := Nat.lt_of_lt_of_le hcell hslot
  exact (h.2 cell (Nat.lt_of_lt_of_le hlt slot.start_le_stop)).trans (reserve_eq hlt)

end Owners

variable {code : List SlotCode}

/-- In every run of a well-scoped program the slots that are accessed still have their cells. -/
theorem SlotRuns.safe {events : List SlotEvent} {finished : Bool} (hrun : SlotRuns code events finished) :
    ∀ {owners : Owners} {live : List Slot} {top : ℕ}, WellScoped live top code → owners.Holds live top →
      owners.Safe top events := by
  induction hrun with
  | stop code => exact fun _ _ => Owners.safe_nil
  | nil => exact fun _ _ => Owners.safe_nil
  | point _ ih =>
    rintro owners live top (_ | h) hholds
    exact ih h hholds
  | reserve _ ih =>
    rintro owners live top (_ | _ | ⟨hslot, h⟩) hholds
    exact .reserve hslot (ih h (hholds.reserve hslot))
  | access _ ih =>
    rintro owners live top (_ | _ | _ | ⟨hslot, h⟩) hholds
    obtain ⟨hintact, hafter⟩ := ih h hholds
    exact ⟨⟨(hholds _ hslot).2, hintact⟩, hafter⟩
  | blockStop _ ih =>
    rintro owners live top (_ | _ | _ | _ | ⟨hbody, h⟩) hholds
    exact ih hbody hholds
  | block _ _ ih ihrest =>
    rintro owners live top (_ | _ | _ | _ | ⟨hbody, h⟩) hholds
    have hsafe := ih hbody hholds
    exact hsafe.append (ihrest h (hholds.after hsafe))
  | ifStop _ ih =>
    rintro owners live top (_ | _ | _ | _ | _ | ⟨hif, helse, h⟩) hholds
    exact ih hif hholds
  | ifBranch _ _ ih ihrest =>
    rintro owners live top (_ | _ | _ | _ | _ | ⟨hif, helse, h⟩) hholds
    have hsafe := ih hif hholds
    exact hsafe.append (ihrest h (hholds.after hsafe))
  | elseStop _ ih =>
    rintro owners live top (_ | _ | _ | _ | _ | ⟨hif, helse, h⟩) hholds
    exact ih helse hholds
  | elseBranch _ _ ih ihrest =>
    rintro owners live top (_ | _ | _ | _ | _ | ⟨hif, helse, h⟩) hholds
    have hsafe := ih helse hholds
    exact hsafe.append (ihrest h (hholds.after hsafe))
  | condStop _ ih =>
    rintro owners live top (_ | _ | _ | _ | _ | _ | ⟨hcond, hbody, h⟩) hholds
    exact ih hcond hholds
  | loopEnd _ _ ih ihrest =>
    rintro owners live top (_ | _ | _ | _ | _ | _ | ⟨hcond, hbody, h⟩) hholds
    have hsafe := ih hcond hholds
    exact hsafe.append (ihrest h (hholds.after hsafe))
  | bodyStop _ _ ih ihbody =>
    rintro owners live top (_ | _ | _ | _ | _ | _ | ⟨hcond, hbody, h⟩) hholds
    have hsafe := ih hcond hholds
    exact hsafe.append (ihbody hbody (hholds.after hsafe))
  | loop _ _ _ ih ihbody ihloop =>
    rintro owners live top (_ | _ | _ | _ | _ | _ | ⟨hcond, hbody, h⟩) hholds
    have hsafe := ih hcond hholds
    have hsafe' := ihbody hbody (hholds.after hsafe)
    exact hsafe.append (hsafe'.append
      (ihloop (.loop hcond hbody h) ((hholds.after hsafe).after hsafe')))

variable {live : List Slot}

/-- More slots can be live, and the top can be lower. -/
theorem WellScoped.weaken {top : ℕ} (h : WellScoped live top code) :
    ∀ {live' : List Slot} {top' : ℕ}, live ⊆ live' → top' ≤ top → WellScoped live' top' code := by
  induction h with
  | nil => exact fun _ _ => .nil
  | point _ ih => exact fun hlive htop => .point (ih hlive htop)
  | reserve hslot _ ih =>
    exact fun hlive htop => .reserve (Nat.le_trans htop hslot) (ih (List.cons_subset_cons _ hlive) (Nat.le_refl _))
  | access hslot _ ih => exact fun hlive htop => .access (hlive hslot) (ih hlive htop)
  | block _ _ ihbody ih => exact fun hlive htop => .block (ihbody hlive htop) (ih hlive htop)
  | branch _ _ _ ihif ihelse ih =>
    exact fun hlive htop => .branch (ihif hlive htop) (ihelse hlive htop) (ih hlive htop)
  | loop _ _ _ ihcond ihbody ih =>
    exact fun hlive htop => .loop (ihcond hlive htop) (ihbody hlive htop) (ih hlive htop)

/-- Accesses of live slots in front of a program. -/
theorem WellScoped.accesses {top : ℕ} {rest : List SlotCode} (hcode : ∀ c ∈ code, ∃ slot ∈ live, c = .access slot)
    (h : WellScoped live top rest) : WellScoped live top (code ++ rest) := by
  induction code with
  | nil => exact h
  | cons c code ih =>
    obtain ⟨⟨slot, hslot, rfl⟩, hrest⟩ := List.forall_mem_cons.mp hcode
    exact .access hslot (ih hrest)

/-! ## Points and reservations -/

mutual

/-- All points of the program satisfy the property. -/
def SlotCode.AtPoints (P : List Slot → Prop) : SlotCode → Prop
  | .point live => P live
  | .reserve _ => True
  | .access _ => True
  | .block body => AllPoints P body
  | .branch ifBranch elseBranch => AllPoints P ifBranch ∧ AllPoints P elseBranch
  | .loop cond body => AllPoints P cond ∧ AllPoints P body

def AllPoints (P : List Slot → Prop) : List SlotCode → Prop
  | [] => True
  | c :: code => c.AtPoints P ∧ AllPoints P code

end

mutual

/-- The slots that are reserved in the order of the text. -/
def SlotCode.reservations : SlotCode → List Slot
  | .point _ => []
  | .reserve slot => [slot]
  | .access _ => []
  | .block body => reservations body
  | .branch ifBranch elseBranch => reservations ifBranch ++ reservations elseBranch
  | .loop cond body => reservations cond ++ reservations body

def reservations : List SlotCode → List Slot
  | [] => []
  | c :: code => c.reservations ++ reservations code

end

theorem allPoints_append {P : List Slot → Prop} {code' : List SlotCode} :
    AllPoints P (code ++ code') ↔ AllPoints P code ∧ AllPoints P code' := by
  induction code with
  | nil => exact (and_iff_right trivial).symm
  | cons c code ih => exact (and_congr_right fun _ => ih).trans and_assoc.symm

theorem reservations_append (code code' : List SlotCode) :
    reservations (code ++ code') = reservations code ++ reservations code' := by
  induction code with
  | nil => rfl
  | cons c code ih =>
    show c.reservations ++ reservations (code ++ code') = c.reservations ++ reservations code ++ reservations code'
    rw [ih, List.append_assoc]

mutual

theorem SlotCode.AtPoints.mono {P Q : List Slot → Prop} (h : ∀ live, P live → Q live) :
    ∀ c : SlotCode, c.AtPoints P → c.AtPoints Q
  | .point live, hc => h live hc
  | .reserve _, _ => trivial
  | .access _, _ => trivial
  | .block body, hc => AllPoints.mono h body hc
  | .branch ifBranch elseBranch, hc => ⟨AllPoints.mono h ifBranch hc.1, AllPoints.mono h elseBranch hc.2⟩
  | .loop cond body, hc => ⟨AllPoints.mono h cond hc.1, AllPoints.mono h body hc.2⟩

theorem AllPoints.mono {P Q : List Slot → Prop} (h : ∀ live, P live → Q live) :
    ∀ code : List SlotCode, AllPoints P code → AllPoints Q code
  | [], _ => trivial
  | c :: code, hc => ⟨SlotCode.AtPoints.mono h c hc.1, AllPoints.mono h code hc.2⟩

end

/-- Accesses have no points. -/
theorem allPoints_accesses {P : List Slot → Prop}
    (hcode : ∀ c ∈ code, ∃ slot ∈ live, c = .access slot) : AllPoints P code := by
  induction code with
  | nil => trivial
  | cons c code ih =>
    obtain ⟨⟨slot, -, rfl⟩, hrest⟩ := List.forall_mem_cons.mp hcode
    exact ⟨trivial, ih hrest⟩

theorem reservations_accesses (hcode : ∀ c ∈ code, ∃ slot ∈ live, c = .access slot) : reservations code = [] := by
  induction code with
  | nil => rfl
  | cons c code ih =>
    obtain ⟨⟨slot, -, rfl⟩, hrest⟩ := List.forall_mem_cons.mp hcode
    exact ih hrest

/-! ## Consecutive slots -/

/-- Every slot begins where the one before it ends. -/
inductive Consecutive : ℕ → List Slot → ℕ → Prop
  | nil (n : ℕ) : Consecutive n [] n
  | cons {slot : Slot} {slots : List Slot} {n : ℕ} (h : Consecutive slot.stop slots n) :
    Consecutive slot.start (slot :: slots) n

namespace Consecutive

variable {start stop : ℕ} {slots : List Slot}

theorem le (h : Consecutive start slots stop) : start ≤ stop := by
  induction h with
  | nil n => exact Nat.le_refl n
  | @cons slot slots n _ ih => exact Nat.le_trans slot.start_le_stop ih

theorem has_iff (h : Consecutive start slots stop) (cell : ℕ) :
    (∃ slot ∈ slots, slot.Has cell) ↔ start ≤ cell ∧ cell < stop := by
  induction h with
  | nil n =>
    refine iff_of_false (fun ⟨slot, hslot, _⟩ => absurd hslot List.not_mem_nil) fun ⟨hle, hlt⟩ => ?_
    exact absurd hlt (Nat.not_lt.mpr hle)
  | @cons slot slots n h ih =>
    have hle := h.le
    have hstart := slot.start_le_stop
    constructor
    · rintro ⟨other, hother, hcell⟩
      rcases List.mem_cons.mp hother with rfl | hother
      · exact ⟨hcell.1, Nat.lt_of_lt_of_le hcell.2 hle⟩
      · obtain ⟨hge, hlt⟩ := ih.mp ⟨other, hother, hcell⟩
        exact ⟨Nat.le_trans hstart hge, hlt⟩
    · rintro ⟨hge, hlt⟩
      by_cases hcell : cell < slot.stop
      · exact ⟨slot, List.mem_cons_self, hge, hcell⟩
      · obtain ⟨other, hother, hhas⟩ := ih.mpr ⟨Nat.not_lt.mp hcell, hlt⟩
        exact ⟨other, List.mem_cons_of_mem _ hother, hhas⟩

theorem pairwise (h : Consecutive start slots stop) : slots.Pairwise Slot.Disjoint := by
  induction h with
  | nil n => exact .nil
  | @cons slot slots n h ih =>
    refine .cons (fun other hother cell hcell hcell' => ?_) ih
    obtain ⟨hge, -⟩ := (h.has_iff cell).mp ⟨other, hother, hcell'⟩
    exact absurd hcell.2 (Nat.not_lt.mpr hge)

end Consecutive

end Circom.Lib
