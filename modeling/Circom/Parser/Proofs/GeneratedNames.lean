import Circom.Parser.Proofs.AnonymousComponents
import Mathlib.Data.List.Flatten
import Mathlib.Data.List.Perm.Subperm
import Std.Data.String.ToNat

/-!
# Generated names

A generated name ends with the position of its node. Nodes that start at different positions get
different names.
-/

namespace Circom.Parser

open Circom.Ast
open Circom.Lib (Occurs bind_eq_ok)
open List (Subperm)

variable {names : List String} {starts : List ℕ} {info : Meta}

/-! ## Where nodes start -/

mutual

/-- Where the anonymous components of an expression start. -/
def componentStarts : Expression → List ℕ
  | .infixOp _ lhe _ rhe => componentStarts lhe ++ componentStarts rhe
  | .prefixOp _ _ rhe => componentStarts rhe
  | .inlineSwitchOp _ cond ifTrue ifFalse =>
    componentStarts cond ++ componentStarts ifTrue ++ componentStarts ifFalse
  | .parallelOp _ rhe => componentStarts rhe
  | .var _ _ access => componentStartsOfAccess access
  | .number .. => []
  | .call _ _ args => componentStartsOfEach args
  | .busCall _ _ args => componentStartsOfEach args
  | .anonymousComp info _ _ params signals _ =>
    info.start :: (componentStartsOfEach params ++ componentStartsOfEach signals)
  | .arrayInLine _ values => componentStartsOfEach values
  | .tuple _ values => componentStartsOfEach values
  | .uniformArray _ value dimension => componentStarts value ++ componentStarts dimension

def componentStartsOfEach : List Expression → List ℕ
  | [] => []
  | exp :: exps => componentStarts exp ++ componentStartsOfEach exps

def componentStartsOfAccess : List Access → List ℕ
  | [] => []
  | .componentAccess _ :: access => componentStartsOfAccess access
  | .arrayAccess index :: access => componentStarts index ++ componentStartsOfAccess access

end

mutual

/-- Where the anonymous components and the loops of a statement start. -/
def nodeStarts : Statement → List ℕ
  | .ifThenElse _ cond ifCase elseCase =>
    match elseCase with
    | none => componentStarts cond ++ nodeStarts ifCase
    | some elseCase => componentStarts cond ++ (nodeStarts ifCase ++ nodeStarts elseCase)
  | .whileStmt info cond stmt => info.start :: (componentStarts cond ++ nodeStarts stmt)
  | .returnStmt _ value => componentStarts value
  | .initializationBlock _ _ initializations => nodeStartsOfEach initializations
  | .declaration _ _ _ dimensions _ _ => componentStartsOfEach dimensions
  | .substitution _ _ access _ rhe => componentStartsOfAccess access ++ componentStarts rhe
  | .multSubstitution _ lhe _ rhe => componentStarts lhe ++ componentStarts rhe
  | .underscoreSubstitution _ _ rhe => componentStarts rhe
  | .constraintEquality _ lhe rhe => componentStarts lhe ++ componentStarts rhe
  | .logCall _ args => componentStartsOfEach (args.filterMap LogArgument.exp?)
  | .block _ stmts => nodeStartsOfEach stmts
  | .assert _ arg => componentStarts arg

def nodeStartsOfEach : List Statement → List ℕ
  | [] => []
  | stmt :: stmts => nodeStarts stmt ++ nodeStartsOfEach stmts

end

theorem componentStartsOfEach_eq (exps : List Expression) :
    componentStartsOfEach exps = exps.flatMap componentStarts := by
  induction exps with
  | nil => rfl
  | cons exp exps ih => rw [componentStartsOfEach, ih, List.flatMap_cons]

/-! ## The position in a name -/

def digits (start : ℕ) : List Char := (toString start).toList

theorem digits_eq (start : ℕ) : digits start = Nat.toDigits 10 start := by
  rw [digits, Nat.toString_eq_repr, Nat.toList_repr]

/-- What stands behind the last underscore. -/
def startDigits (name : String) : List Char := (name.toList.reverse.takeWhile (· ≠ '_')).reverse

theorem startDigits_nodeName {fileLib : FileLibrary} {id name : String}
    (h : nodeName fileLib id info = .ok name) : startDigits name = digits info.start := by
  rw [nodeName] at h
  split at h
  · cases h
  split at h
  · cases h
  · rename_i line hline
    cases h
    have hdigit : ∀ c ∈ (digits info.start).reverse, decide (c ≠ '_') = true := by
      intro c hc
      rw [digits_eq, List.mem_reverse] at hc
      refine decide_eq_true fun h => ?_
      rw [h] at hc
      exact Nat.underscore_not_in_toDigits hc
    have hname : (id ++ "_" ++ toString line ++ "_" ++ toString info.start).toList.reverse =
        (digits info.start).reverse ++ '_' :: (id ++ "_" ++ toString line).toList.reverse := by
      rw [String.toList_append, String.toList_append, List.reverse_append, List.reverse_append]
      rfl
    rw [startDigits, hname, List.takeWhile_append_of_pos hdigit,
      List.takeWhile_cons_of_neg (by decide), List.append_nil, List.reverse_reverse]

theorem digits_injective : Function.Injective digits := by
  intro a b h
  rw [digits, digits] at h
  exact Nat.repr_injective (String.toList_injective h)

theorem digits_ne_nil (start : ℕ) : digits start ≠ [] := by
  rw [digits_eq]
  exact Nat.toDigits_ne_nil

/-- Each name belongs to a node of its own among those that start at the given positions. -/
def NamesFrom (names : List String) (starts : List ℕ) : Prop :=
  (names.map startDigits).Subperm (starts.map digits)

theorem NamesFrom.nil : NamesFrom [] starts := List.nil_subperm

theorem NamesFrom.append {names' : List String} {starts' : List ℕ} (h : NamesFrom names starts)
    (h' : NamesFrom names' starts') : NamesFrom (names ++ names') (starts ++ starts') := by
  rw [NamesFrom, List.map_append, List.map_append]
  exact Subperm.append h h'

theorem NamesFrom.cons {fileLib : FileLibrary} {id name : String} (hname : nodeName fileLib id info = .ok name)
    (h : NamesFrom names starts) : NamesFrom (name :: names) (info.start :: starts) := by
  rw [NamesFrom, List.map_cons, List.map_cons, startDigits_nodeName hname]
  exact List.subperm_cons _ |>.mpr h

theorem NamesFrom.mono {starts' : List ℕ} (h : NamesFrom names starts)
    (hsub : starts.Subperm starts') : NamesFrom names starts' :=
  Subperm.trans h ((List.map_subperm_map_iff digits_injective).mpr hsub)

theorem NamesFrom.perm {names' : List String} (h : NamesFrom names starts)
    (hperm : names'.Perm names) : NamesFrom names' starts :=
  Subperm.trans (hperm.map startDigits).subperm h

theorem NamesFrom.flatMap {α : Type} {l : List α} {names : α → List String} {starts : α → List ℕ}
    (h : ∀ x ∈ l, NamesFrom (names x) (starts x)) : NamesFrom (l.flatMap names) (l.flatMap starts) := by
  induction l with
  | nil => exact .nil
  | cons x l ih =>
    rw [List.flatMap_cons, List.flatMap_cons]
    exact (h x List.mem_cons_self).append (ih fun y hy => h y (List.mem_cons_of_mem _ hy))

theorem nodup_of_subperm {α : Type} {l l' : List α} (h : l.Subperm l') (hnodup : l'.Nodup) :
    l.Nodup := by
  obtain ⟨l'', hperm, hsub⟩ := h
  exact hperm.nodup_iff.mp (hnodup.sublist hsub)

/-- Names of nodes with different positions are different. -/
theorem NamesFrom.nodup (h : NamesFrom names starts) (hstarts : starts.Nodup) : names.Nodup :=
  (nodup_of_subperm h (hstarts.map digits_injective)).of_map

theorem NamesFrom.ne_underscore (h : NamesFrom names starts) : "_" ∉ names := by
  intro hmem
  obtain ⟨start, -, heq⟩ := List.mem_map.mp (h.subset (List.mem_map_of_mem hmem))
  exact digits_ne_nil start heq

/-! ## Signals are used once -/

section Inputs

variable {α : Type}

theorem btreeInsert_subperm (key : String) (value : α) (entries : List (String × α)) :
    ((btreeInsert key value entries).map Prod.snd).Subperm (value :: entries.map Prod.snd) := by
  induction entries with
  | nil => exact Subperm.refl _
  | cons entry entries ih =>
    rw [btreeInsert]
    split_ifs
    · exact Subperm.refl _
    · exact ((List.sublist_cons_self _ _).cons_cons _).subperm
    · have hcons := List.subperm_cons entry.2 |>.mpr ih
      exact Subperm.trans hcons (List.Perm.swap _ _ _).subperm

/-- The assigned signals. -/
def assignedSignals (assignments : List (String × AssignOp × α)) : List α :=
  (assignments.map Prod.snd).map Prod.snd

theorem assignedSignals_btreeInsert (name : String) (op : AssignOp) (signal : α)
    (assignments : List (String × AssignOp × α)) :
    (assignedSignals (btreeInsert name (op, signal) assignments)).Subperm
      (signal :: assignedSignals assignments) := by
  obtain ⟨l, hperm, hsub⟩ := btreeInsert_subperm name (op, signal) assignments
  exact ⟨l.map Prod.snd, hperm.map _, hsub.map _⟩

theorem namedAssignments_subperm {template : TemplateData} {names : List (AssignOp × String)} {signals : List α}
    {assignments result : List (String × AssignOp × α)}
    (h : namedAssignments info template names signals assignments = .ok result) :
    (assignedSignals result).Subperm (assignedSignals assignments ++ signals) := by
  induction names generalizing signals assignments with
  | nil =>
    cases h
    exact (List.sublist_append_left _ _).subperm
  | cons entry names ih =>
    obtain ⟨operator, name⟩ := entry
    simp only [namedAssignments] at h
    split_ifs at h
    · cases signals with
      | nil => cases h
      | cons signal signals =>
        have hinsert := assignedSignals_btreeInsert name operator signal assignments
        have happend := Subperm.append hinsert (Subperm.refl signals)
        exact Subperm.trans (ih h) (Subperm.trans happend List.perm_middle.symm.subperm)

theorem foldl_btreeInsert_subperm (inputs : List (String × α)) :
    ∀ assignments : List (String × AssignOp × α),
      (assignedSignals (inputs.foldl (fun assignments input =>
        btreeInsert input.1 (AssignOp.assignConstraintSignal, input.2) assignments)
        assignments)).Subperm (assignedSignals assignments ++ inputs.map Prod.snd) := by
  induction inputs with
  | nil =>
    intro assignments
    rw [List.map_nil, List.append_nil]
    exact Subperm.refl _
  | cons input inputs ih =>
    intro assignments
    have hinsert := assignedSignals_btreeInsert input.1 .assignConstraintSignal input.2 assignments
    have happend := Subperm.append hinsert (Subperm.refl (inputs.map Prod.snd))
    exact Subperm.trans (ih _) (Subperm.trans happend List.perm_middle.symm.subperm)

/-- No signal is assigned to two inputs. -/
theorem inputsToAssignments_subperm {template : TemplateData} {names : Option (List (AssignOp × String))}
    {signals : List α} {result : List (String × AssignOp × α)}
    (h : inputsToAssignments info template names signals = .ok result) : (assignedSignals result).Subperm signals := by
  cases names with
  | some names =>
    simp only [inputsToAssignments] at h
    split_ifs at h
    obtain ⟨assignments, hnamed, h⟩ := bind_eq_ok h
    split_ifs at h
    cases h
    exact namedAssignments_subperm hnamed
  | none =>
    simp only [inputsToAssignments] at h
    split_ifs at h with hlength
    cases h
    have hfold := foldl_btreeInsert_subperm (template.inputDeclarations.zip signals) []
    rw [List.map_snd_zip (Nat.le_of_eq (not_not.mp hlength).symm)] at hfold
    exact hfold

end Inputs

theorem usedSignals_subperm (templates : List (String × TemplateData)) (info : Meta) (id : String)
    (names : Option (List (AssignOp × String))) (signals : List Expression) :
    (usedSignals templates info id names signals).Subperm signals := by
  rw [usedSignals]
  split
  · exact List.nil_subperm
  · split
    · rename_i inputs hinputs
      have hsub := inputsToAssignments_subperm hinputs
      rw [assignedSignals, List.map_map] at hsub
      exact hsub
    · exact List.nil_subperm

theorem flatMap_subperm {α β : Type} {l l' : List α} (h : l.Subperm l') (f : α → List β) :
    (l.flatMap f).Subperm (l'.flatMap f) := by
  obtain ⟨l'', hperm, hsub⟩ := h
  exact ⟨l''.flatMap f, hperm.flatMap_right f, hsub.flatMap f⟩

end Circom.Parser
