import Circom.Algebra.Proofs.ModularArithmetic
import Circom.Ast.Execution
import Circom.Parser.Proofs.AnonymousComponents
import Circom.Parser.Proofs.Tuples

/-!
# Counters and creations in a run

A component that is created outside of loops is created at most once. Inside a loop whose body ends with
an increment of its counter, there is an increment between two creations, and each creation is indexed by
the number of increments before it.
-/

namespace Circom.Parser

open Circom.Ast
open Circom.Lib (Occurs occurs_iff forall_occurs_iff)
open Circom.Algebra.ModularArithmetic (modulus modulus_eq_emod)

variable {trace : List Event} {stmts : List Statement} {names : List String} {s : Statement} {k n : String}
variable {a : ℕ}

/-! ## Properties of all statements -/

/-- Every statement of a sequence, at any depth, satisfies `Q`. -/
def Everywhere (Q : Statement → Prop) (stmts : List Statement) : Prop :=
  ∀ s ∈ stmts, ∀ t : Statement, t.OccursIn s → Q t

variable {Q : Statement → Prop}

theorem everywhere_nil : Everywhere Q [] := fun _ h => absurd h List.not_mem_nil

theorem everywhere_append {l l' : List Statement} :
    Everywhere Q (l ++ l') ↔ Everywhere Q l ∧ Everywhere Q l' := by
  simp only [Everywhere, List.mem_append, or_imp, forall_and]

theorem everywhere_cons : Everywhere Q (s :: stmts) ↔ (Q s ∧ Everywhere Q s.children) ∧ Everywhere Q stmts := by
  rw [Everywhere, List.forall_mem_cons, forall_occurs_iff]
  exact Iff.rfl

theorem everywhere_singleton : Everywhere Q [s] ↔ Q s ∧ Everywhere Q s.children := by
  rw [everywhere_cons]
  exact and_iff_left everywhere_nil

/-! ## Creations -/

/-- The variable on top of an expression. -/
def varName? : Expression → Option String
  | .var _ name _ => some name
  | _ => none

/-- The names that a statement itself declares or assigns to. -/
def localNames : Statement → List String
  | .declaration _ _ name .. => [name]
  | .substitution _ var _ _ _ => [var]
  | .multSubstitution _ lhe _ _ => (leaves lhe).filterMap varName?
  | _ => []

def isAssignVar : Statement → Bool
  | .substitution _ _ _ op _ => op = .assignVar
  | .multSubstitution _ _ op _ => op = .assignVar
  | _ => false

/-- The statement gives `n` a value with `=`. -/
def Creates (n : String) (s : Statement) : Prop := isAssignVar s = true ∧ n ∈ localNames s

abbrev NoCreation (n : String) : List Statement → Prop := Everywhere fun t => ¬ Creates n t

/-- One statement of the sequence creates `n`, outside of loops, or none does. -/
inductive Once (n : String) : List Statement → Prop
  | absent {stmts : List Statement} (h : NoCreation n stmts) : Once n stmts
  | tail {s : Statement} {stmts : List Statement} (hs : NoCreation n [s]) (h : Once n stmts) :
      Once n (s :: stmts)
  | substitution {info : Meta} {var : String} {access : List Access} {op : AssignOp}
      {rhe : Expression} {stmts : List Statement} (h : NoCreation n stmts) :
      Once n (.substitution info var access op rhe :: stmts)
  | block {info : Meta} {inner stmts : List Statement} (hinner : Once n inner)
      (h : NoCreation n stmts) : Once n (.block info inner :: stmts)
  | initializationBlock {info : Meta} {xtype : VariableType} {inits stmts : List Statement}
      (hinits : Once n inits) (h : NoCreation n stmts) :
      Once n (.initializationBlock info xtype inits :: stmts)
  | ifThenElse {info : Meta} {cond : Expression} {ifCase : Statement} {elseCase : Option Statement}
      {stmts : List Statement} (hif : Once n [ifCase]) (helse : Once n elseCase.toList)
      (h : NoCreation n stmts) : Once n (.ifThenElse info cond ifCase elseCase :: stmts)

theorem Once.append {stmts' : List Statement} (h : Once n stmts)
    (h' : NoCreation n stmts') : Once n (stmts ++ stmts') := by
  induction h with
  | absent h => exact .absent (everywhere_append.mpr ⟨h, h'⟩)
  | tail hs _ ih => exact .tail hs ih
  | substitution h => exact .substitution (everywhere_append.mpr ⟨h, h'⟩)
  | block hinner h => exact .block hinner (everywhere_append.mpr ⟨h, h'⟩)
  | initializationBlock hinits h =>
    exact .initializationBlock hinits (everywhere_append.mpr ⟨h, h'⟩)
  | ifThenElse hif helse h => exact .ifThenElse hif helse (everywhere_append.mpr ⟨h, h'⟩)

theorem Once.prepend {stmts' : List Statement} (h : NoCreation n stmts)
    (h' : Once n stmts') : Once n (stmts ++ stmts') := by
  induction stmts with
  | nil => exact h'
  | cons s stmts ih =>
    obtain ⟨hs, hrest⟩ := everywhere_cons.mp h
    exact .tail (everywhere_singleton.mpr hs) (ih hrest)

/-- The event is a creation of `n`. -/
def isCreation (n : String) (ev : Event) : Bool := ev.var = n ∧ ev.op = .assignVar

variable {field : ℤ} {stmts : List Statement} {σ : Store} {trace : List Event} {out : Option Store}

theorem not_isCreation_of_not_creates {var : String} {info : Meta} {access : List Access} {op : AssignOp}
    {rhe : Expression} {index : List ℤ} (h : ¬ Creates n (.substitution info var access op rhe)) :
    isCreation n ⟨var, index, op⟩ = false := by
  rw [isCreation, decide_eq_false_iff_not]
  rintro ⟨hvar, hop⟩
  apply h
  refine ⟨?_, ?_⟩
  · exact decide_eq_true hop
  · exact List.mem_singleton.mpr hvar.symm

theorem countP_of_noCreation (h : Exec field stmts σ trace out) :
    NoCreation n stmts → trace.countP (isCreation n) = 0 := by
  induction h with
  | done => exact fun _ => rfl
  | stop => exact fun _ => rfl
  | declaration v _ ih => exact fun hs => ih (everywhere_cons.mp hs).2
  | initializationBlock _ ih =>
    intro hs
    obtain ⟨⟨-, hinits⟩, hrest⟩ := everywhere_cons.mp hs
    exact ih (everywhere_append.mpr ⟨hinits, hrest⟩)
  | block _ _ ih ih' =>
    intro hs
    obtain ⟨⟨-, hinner⟩, hrest⟩ := everywhere_cons.mp hs
    rw [List.countP_append, ih hinner, ih' hrest]
  | blockStop _ ih => exact fun hs => ih (everywhere_cons.mp hs).1.2
  | ifTrue _ _ _ ih =>
    intro hs
    obtain ⟨⟨-, hcases⟩, hrest⟩ := everywhere_cons.mp hs
    exact ih (everywhere_cons.mpr ⟨(everywhere_cons.mp hcases).1, hrest⟩)
  | ifFalse _ _ _ ih =>
    intro hs
    obtain ⟨⟨-, hcases⟩, hrest⟩ := everywhere_cons.mp hs
    exact ih (everywhere_append.mpr ⟨(everywhere_cons.mp hcases).2, hrest⟩)
  | whileTrue _ _ _ ih =>
    intro hs
    exact ih (everywhere_cons.mpr ⟨everywhere_singleton.mp (everywhere_cons.mp hs).1.2, hs⟩)
  | whileFalse _ _ _ ih => exact fun hs => ih (everywhere_cons.mp hs).2
  | substitution hindex hv _ ih =>
    intro hs
    obtain ⟨⟨hcreates, -⟩, hrest⟩ := everywhere_cons.mp hs
    rw [List.countP_cons_of_neg (by rw [not_isCreation_of_not_creates hcreates]; decide)]
    exact ih hrest
  | underscoreSubstitution _ ih => exact fun hs => ih (everywhere_cons.mp hs).2
  | constraintEquality _ ih => exact fun hs => ih (everywhere_cons.mp hs).2
  | logCall _ ih => exact fun hs => ih (everywhere_cons.mp hs).2
  | assert _ ih => exact fun hs => ih (everywhere_cons.mp hs).2

/-- What `Once` says about the head of a sequence that creates `n`. -/
def OnceIn (n : String) : Statement → Prop
  | .substitution .. => True
  | .block _ inner => Once n inner
  | .initializationBlock _ _ inits => Once n inits
  | .ifThenElse _ _ ifCase elseCase => Once n [ifCase] ∧ Once n elseCase.toList
  | _ => False

theorem once_cons (h : Once n (s :: stmts)) : NoCreation n [s] ∧ Once n stmts ∨ OnceIn n s ∧ NoCreation n stmts := by
  cases h with
  | absent h =>
    obtain ⟨hs, hrest⟩ := everywhere_cons.mp h
    exact Or.inl ⟨everywhere_singleton.mpr hs, .absent hrest⟩
  | tail hs h => exact Or.inl ⟨hs, h⟩
  | substitution h => exact Or.inr ⟨trivial, h⟩
  | block hinner h => exact Or.inr ⟨hinner, h⟩
  | initializationBlock hinits h => exact Or.inr ⟨hinits, h⟩
  | ifThenElse hif helse h => exact Or.inr ⟨⟨hif, helse⟩, h⟩

theorem countP_of_once (h : Exec field stmts σ trace out) : Once n stmts → trace.countP (isCreation n) ≤ 1 := by
  induction h with
  | done => exact fun _ => Nat.zero_le 1
  | stop => exact fun _ => Nat.zero_le 1
  | declaration v _ ih =>
    intro honce
    rcases once_cons honce with ⟨-, hrest⟩ | ⟨hin, -⟩
    · exact ih hrest
    · exact hin.elim
  | initializationBlock _ ih =>
    intro honce
    rcases once_cons honce with ⟨hs, hrest⟩ | ⟨hin, hrest⟩
    · exact ih (hrest.prepend (everywhere_singleton.mp hs).2)
    · exact ih (Once.append hin hrest)
  | block h h' ih ih' =>
    intro honce
    rw [List.countP_append]
    rcases once_cons honce with ⟨hs, hrest⟩ | ⟨hin, hrest⟩
    · have hzero := countP_of_noCreation h (everywhere_singleton.mp hs).2
      have hone := ih' hrest
      omega
    · have hone := ih hin
      have hzero := countP_of_noCreation h' hrest
      omega
  | blockStop h ih =>
    intro honce
    rcases once_cons honce with ⟨hs, -⟩ | ⟨hin, -⟩
    · rw [countP_of_noCreation h (everywhere_singleton.mp hs).2]
      exact Nat.zero_le 1
    · exact ih hin
  | ifTrue _ _ _ ih =>
    intro honce
    rcases once_cons honce with ⟨hs, hrest⟩ | ⟨hin, hrest⟩
    · have hcases := (everywhere_singleton.mp hs).2
      exact ih (.tail (everywhere_singleton.mpr (everywhere_cons.mp hcases).1) hrest)
    · exact ih (Once.append hin.1 hrest)
  | ifFalse _ _ _ ih =>
    intro honce
    rcases once_cons honce with ⟨hs, hrest⟩ | ⟨hin, hrest⟩
    · have hcases := (everywhere_singleton.mp hs).2
      exact ih (hrest.prepend (everywhere_cons.mp hcases).2)
    · exact ih (Once.append hin.2 hrest)
  | whileTrue _ _ _ ih =>
    intro honce
    rcases once_cons honce with ⟨hs, -⟩ | ⟨hin, -⟩
    · exact ih (.tail (everywhere_singleton.mp hs).2 honce)
    · exact hin.elim
  | whileFalse _ _ _ ih =>
    intro honce
    rcases once_cons honce with ⟨-, hrest⟩ | ⟨hin, -⟩
    · exact ih hrest
    · exact hin.elim
  | substitution hindex hv h ih =>
    intro honce
    rcases once_cons honce with ⟨hs, hrest⟩ | ⟨-, hrest⟩
    · rw [List.countP_cons_of_neg (by
        rw [not_isCreation_of_not_creates (everywhere_singleton.mp hs).1]; decide)]
      exact ih hrest
    · rw [List.countP_cons, countP_of_noCreation h hrest]
      split_ifs
      · exact Nat.le_refl 1
      · exact Nat.zero_le 1
  | underscoreSubstitution _ ih =>
    intro honce
    rcases once_cons honce with ⟨-, hrest⟩ | ⟨hin, -⟩
    · exact ih hrest
    · exact hin.elim
  | constraintEquality _ ih =>
    intro honce
    rcases once_cons honce with ⟨-, hrest⟩ | ⟨hin, -⟩
    · exact ih hrest
    · exact hin.elim
  | logCall _ ih =>
    intro honce
    rcases once_cons honce with ⟨-, hrest⟩ | ⟨hin, -⟩
    · exact ih hrest
    · exact hin.elim
  | assert _ ih =>
    intro honce
    rcases once_cons honce with ⟨-, hrest⟩ | ⟨hin, -⟩
    · exact ih hrest
    · exact hin.elim

/-! ## Increments between creations -/

/-- Whether a creation of `n` is still without an increment of `k` behind it. -/
def pending (n k : String) (before : Bool) (ev : Event) : Bool :=
  if isCreation n ev then true else if ev.var = k then false else before

/-- Each creation of `n` comes after an increment of `k`, if there was a creation before. -/
def Separated (n k : String) : Bool → List Event → Prop
  | _, [] => True
  | before, ev :: trace =>
    (isCreation n ev = true → before = false) ∧ Separated n k (pending n k before ev) trace

theorem separated_append {before : Bool} {trace' : List Event} :
    Separated n k before (trace ++ trace') ↔
      Separated n k before trace ∧ Separated n k (trace.foldl (pending n k) before) trace' := by
  induction trace generalizing before with
  | nil => exact (and_iff_right trivial).symm
  | cons ev trace ih =>
    rw [List.cons_append, Separated, Separated, ih, List.foldl_cons, and_assoc]

theorem separated_of_countP_zero {before : Bool}
    (h : trace.countP (isCreation n) = 0) : Separated n k before trace := by
  induction trace generalizing before with
  | nil => trivial
  | cons ev trace ih =>
    cases hev : isCreation n ev with
    | true =>
      rw [List.countP_cons_of_pos hev] at h
      omega
    | false =>
      rw [List.countP_cons_of_neg (by rw [hev]; decide)] at h
      refine ⟨fun h => ?_, ih h⟩
      rw [hev] at h
      cases h

theorem separated_of_countP_le_one (h : trace.countP (isCreation n) ≤ 1) : Separated n k false trace := by
  induction trace with
  | nil => trivial
  | cons ev trace ih =>
    refine ⟨fun _ => rfl, ?_⟩
    cases hev : isCreation n ev with
    | true =>
      rw [List.countP_cons_of_pos hev] at h
      exact separated_of_countP_zero (by omega)
    | false =>
      rw [List.countP_cons_of_neg (by rw [hev]; decide)] at h
      have hpending : pending n k false ev = false := by
        rw [pending, hev, if_neg Bool.false_ne_true]
        split_ifs
        · rfl
        · rfl
      rw [hpending]
      exact ih h

/-- The assignment `k = k + 1`. -/
def IsIncrement (k : String) (s : Statement) : Prop :=
  ∃ info info₁ info₂ info₃, s = .substitution info k [] .assignVar
    (.infixOp info₁ (.var info₂ k []) .add (.number info₃ 1))

/-- Creations of `n` stand in loop bodies that create it once and then increment `k`. -/
inductive InLoop (n k : String) : Statement → Prop
  | body {info : Meta} {b step : Statement} (hb : Once n [b]) (hstep : IsIncrement k step) :
      InLoop n k (.block info [b, step])
  | node {s : Statement} (hs : ¬ Creates n s) (hchildren : ∀ c ∈ s.children, InLoop n k c) :
      InLoop n k s

theorem inLoop_of_noCreation (h : NoCreation n [s]) : InLoop n k s := by
  induction s using Statement.children_induction with
  | step s ih =>
    obtain ⟨hs, hchildren⟩ := everywhere_singleton.mp h
    refine .node hs fun c hc => ih c hc ?_
    intro t ht
    rw [List.mem_singleton.mp ht]
    exact hchildren c hc

theorem IsIncrement.noCreation {step : Statement} (h : IsIncrement k step) (hne : n ≠ k) : NoCreation n [step] := by
  obtain ⟨_, _, _, _, rfl⟩ := h
  refine everywhere_singleton.mpr ⟨?_, everywhere_nil⟩
  rintro ⟨-, hmem⟩
  exact hne (List.mem_singleton.mp hmem)

/-- A run through a loop body ends with the increment. -/
theorem separated_body (hne : n ≠ k) {b step : Statement} (hb : Once n [b]) (hstep : IsIncrement k step)
    (h : Exec field [b, step] σ trace out) :
    Separated n k false trace ∧ (out ≠ none → trace.foldl (pending n k) false = false) := by
  have honce : Once n [b, step] := Once.append hb (hstep.noCreation hne)
  refine ⟨separated_of_countP_le_one (countP_of_once h honce), ?_⟩
  intro hout
  rcases h.appendRun [b] [step] rfl with ⟨σ', trace', trace'', -, hlast, rfl⟩ | ⟨hnone, -⟩
  · obtain ⟨_, _, _, _, rfl⟩ := hstep
    cases hlast with
    | stop => exact absurd rfl hout
    | substitution _ _ hrest =>
      cases hrest with
      | stop => exact absurd rfl hout
      | done =>
        rw [List.foldl_append, List.foldl_cons, List.foldl_nil, pending]
        have hnot : ∀ index, isCreation n ⟨k, index, .assignVar⟩ = false :=
          fun index => decide_eq_false fun h => hne h.1.symm
        rw [hnot, if_neg Bool.false_ne_true, if_pos rfl]
  · exact absurd hnone hout

theorem separated_of_inLoop (hne : n ≠ k) (h : Exec field stmts σ trace out) :
    (∀ s ∈ stmts, InLoop n k s) → Separated n k false trace ∧
      (out ≠ none → trace.foldl (pending n k) false = false) := by
  have hnode : ∀ {s : Statement}, (∀ info inner, s ≠ .block info inner) → InLoop n k s →
      ¬ Creates n s ∧ ∀ c ∈ s.children, InLoop n k c := by
    intro s hblock hs
    cases hs with
    | body => exact absurd rfl (hblock _ _)
    | node hs hchildren => exact ⟨hs, hchildren⟩
  induction h with
  | done => exact fun _ => ⟨trivial, fun _ => rfl⟩
  | stop => exact fun _ => ⟨trivial, fun h => absurd rfl h⟩
  | declaration v _ ih => exact fun hs => ih fun s hmem => hs s (List.mem_cons_of_mem _ hmem)
  | initializationBlock _ ih =>
    intro hs
    obtain ⟨-, hinits⟩ := hnode (fun _ _ h => by cases h) (hs _ List.mem_cons_self)
    apply ih
    intro s hmem
    rcases List.mem_append.mp hmem with hmem | hmem
    · exact hinits s hmem
    · exact hs s (List.mem_cons_of_mem _ hmem)
  | @block _ _ _ _ σ' trace _ _ h _ ih ih' =>
    intro hs
    obtain ⟨hrest, hclosed⟩ := ih' fun s hmem => hs s (List.mem_cons_of_mem _ hmem)
    have hinner : Separated n k false trace ∧
        (some σ' ≠ none → trace.foldl (pending n k) false = false) := by
      cases hs _ List.mem_cons_self with
      | body hb hstep => exact separated_body hne hb hstep h
      | node _ hchildren => exact ih hchildren
    have hfold := hinner.2 (Option.some_ne_none _)
    refine ⟨separated_append.mpr ⟨hinner.1, ?_⟩, ?_⟩
    · rw [hfold]
      exact hrest
    · rw [List.foldl_append, hfold]
      exact hclosed
  | blockStop h ih =>
    intro hs
    cases hs _ List.mem_cons_self with
    | body hb hstep => exact separated_body hne hb hstep h
    | node _ hchildren => exact ih hchildren
  | ifTrue _ _ _ ih =>
    intro hs
    obtain ⟨-, hcases⟩ := hnode (fun _ _ h => by cases h) (hs _ List.mem_cons_self)
    apply ih
    intro s hmem
    rcases List.mem_cons.mp hmem with rfl | hmem
    · exact hcases _ List.mem_cons_self
    · exact hs s (List.mem_cons_of_mem _ hmem)
  | ifFalse _ _ _ ih =>
    intro hs
    obtain ⟨-, hcases⟩ := hnode (fun _ _ h => by cases h) (hs _ List.mem_cons_self)
    apply ih
    intro s hmem
    rcases List.mem_append.mp hmem with hmem | hmem
    · exact hcases s (List.mem_cons_of_mem _ hmem)
    · exact hs s (List.mem_cons_of_mem _ hmem)
  | whileTrue _ _ _ ih =>
    intro hs
    obtain ⟨-, hbody⟩ := hnode (fun _ _ h => by cases h) (hs _ List.mem_cons_self)
    apply ih
    intro s hmem
    rcases List.mem_cons.mp hmem with rfl | hmem
    · exact hbody _ List.mem_cons_self
    · exact hs s hmem
  | whileFalse _ _ _ ih => exact fun hs => ih fun s hmem => hs s (List.mem_cons_of_mem _ hmem)
  | @substitution _ var _ op _ _ _ _ _ index _ _ _ _ ih =>
    intro hs
    obtain ⟨hcreates, -⟩ := hnode (fun _ _ h => by cases h) (hs _ List.mem_cons_self)
    have hnot : isCreation n ⟨var, index, op⟩ = false := not_isCreation_of_not_creates hcreates
    have hpending : pending n k false ⟨var, index, op⟩ = false := by
      rw [pending, hnot, if_neg Bool.false_ne_true]
      split_ifs
      · rfl
      · rfl
    obtain ⟨hrest, hclosed⟩ := ih fun s hmem => hs s (List.mem_cons_of_mem _ hmem)
    refine ⟨⟨fun _ => rfl, ?_⟩, ?_⟩
    · rw [hpending]
      exact hrest
    · rw [List.foldl_cons, hpending]
      exact hclosed
  | underscoreSubstitution _ ih =>
    exact fun hs => ih fun s hmem => hs s (List.mem_cons_of_mem _ hmem)
  | constraintEquality _ ih => exact fun hs => ih fun s hmem => hs s (List.mem_cons_of_mem _ hmem)
  | logCall _ ih => exact fun hs => ih fun s hmem => hs s (List.mem_cons_of_mem _ hmem)
  | assert _ ih => exact fun hs => ih fun s hmem => hs s (List.mem_cons_of_mem _ hmem)

/-! ## The value of a counter -/

/-- `k` is neither declared here nor assigned to in another way than by an increment. -/
def CountsUp (k : String) (s : Statement) : Prop := k ∈ localNames s → IsIncrement k s

/-- `n` is created with the given access only. -/
def CreatedAt (n : String) (access : List Access) (s : Statement) : Prop :=
  Creates n s → ∃ info rhe, s = .substitution info n access .assignVar rhe

/-- The access to the element that a counter selects. -/
def counterAccess (info : Meta) (k : String) : List Access := [.arrayAccess (.var info k [])]

/-- Each creation of `n` has the number of assignments to `k` so far as its index. -/
def IndexedTrace (n k : String) (field : ℤ) : ℕ → List Event → Prop
  | _, [] => True
  | a, ev :: trace =>
    (isCreation n ev = true → ev.index = [modulus a field]) ∧
      IndexedTrace n k field (if ev.var = k then a + 1 else a) trace

/-- The assignments to `k`. -/
def assignmentsTo (k : String) (trace : List Event) : ℕ := trace.countP fun ev => ev.var = k

theorem indexedTrace_append {trace' : List Event} :
    IndexedTrace n k field a (trace ++ trace') ↔
      IndexedTrace n k field a trace ∧ IndexedTrace n k field (a + assignmentsTo k trace) trace' := by
  induction trace generalizing a with
  | nil => exact (and_iff_right trivial).symm
  | cons ev trace ih =>
    rw [List.cons_append, IndexedTrace, IndexedTrace, ih, and_assoc, assignmentsTo, assignmentsTo,
      List.countP_cons]
    by_cases h : ev.var = k
    · simp only [h, if_true, decide_true, Nat.add_assoc, Nat.add_comm 1]
    · simp only [h, if_false, decide_false, Bool.false_eq_true, Nat.add_zero]

theorem eval_increment (hfield : 0 < field) {info₁ info₂ info₃ : Meta} {v : ℤ} (hσ : σ k = modulus a field)
    (h : Evaluates field σ (.infixOp info₁ (.var info₂ k []) .add (.number info₃ 1)) v) :
    v = modulus ((a + 1 : ℕ) : ℤ) field := by
  cases h with
  | infixOp hl hr hv =>
    cases hl with
    | var =>
      cases hr with
      | number =>
        cases hv
        rw [Algebra.ModularArithmetic.add, hσ, modulus_eq_emod hfield, modulus_eq_emod hfield,
          modulus_eq_emod hfield, modulus_eq_emod hfield, ← Int.add_emod, Nat.cast_add,
          Nat.cast_one]
      | other h => cases h
    | other h => cases h
  | other h => cases h

theorem leaveScope_of_notMem {before after : Store}
    (h : k ∉ names) : leaveScope names before after k = after k := if_neg h

theorem notMem_declaredNames (h : Everywhere (CountsUp k) stmts) : k ∉ declaredNames stmts := by
  have hstmt : ∀ s : Statement, Everywhere (CountsUp k) [s] → k ∉ s.declares := by
    intro s
    induction s using Statement.children_induction with
    | step s ih =>
      intro hs
      obtain ⟨hlocal, hchildren⟩ := everywhere_singleton.mp hs
      cases s with
      | declaration info xtype name dimensions isConstant isAnonymous =>
        intro hmem
        obtain ⟨_, _, _, _, heq⟩ := hlocal hmem
        cases heq
      | initializationBlock info xtype inits =>
        have hinits : ∀ l : List Statement, (∀ c ∈ l, c ∈ inits) → k ∉ declaredNames l := by
          intro l
          induction l with
          | nil => exact fun _ h => absurd h List.not_mem_nil
          | cons c l ihl =>
            intro hsub hmem
            rcases List.mem_append.mp hmem with hmem | hmem
            · have hc := hsub c List.mem_cons_self
              refine ih c hc (fun t ht => ?_) hmem
              rw [List.mem_singleton.mp ht]
              exact hchildren c hc
            · exact ihl (fun c hc => hsub c (List.mem_cons_of_mem _ hc)) hmem
        exact hinits inits fun _ h => h
      | _ => exact List.not_mem_nil
  induction stmts with
  | nil => exact List.not_mem_nil
  | cons s stmts ih =>
    obtain ⟨hs, hrest⟩ := everywhere_cons.mp h
    intro hmem
    rcases List.mem_append.mp hmem with hmem | hmem
    · exact hstmt s (everywhere_singleton.mpr hs) hmem
    · exact ih hrest hmem

/-- A run counts the assignments to `k`, and its creations of `n` read off the count. -/
theorem indexedTrace_of_exec {info : Meta} (hfield : 0 < field) (h : Exec field stmts σ trace out) :
    Everywhere (CountsUp k) stmts → Everywhere (CreatedAt n (counterAccess info k)) stmts → ∀ a : ℕ,
      σ k = modulus a field → IndexedTrace n k field a trace ∧
        ∀ σ', out = some σ' → σ' k = modulus ((a + assignmentsTo k trace : ℕ) : ℤ) field := by
  induction h with
  | done =>
    intro _ _ a hσ
    refine ⟨trivial, ?_⟩
    rintro σ' ⟨⟩
    exact hσ
  | stop => exact fun _ _ a _ => ⟨trivial, fun σ' h => by cases h⟩
  | declaration v _ ih =>
    intro hcounts hindexed a hσ
    obtain ⟨⟨hname, -⟩, hcounts⟩ := everywhere_cons.mp hcounts
    refine ih hcounts (everywhere_cons.mp hindexed).2 a ?_
    rw [Function.update_of_ne]
    · exact hσ
    · intro heq
      obtain ⟨_, _, _, _, hincr⟩ := hname (List.mem_singleton.mpr heq)
      cases hincr
  | initializationBlock _ ih =>
    intro hcounts hindexed a hσ
    obtain ⟨⟨-, hcinits⟩, hcrest⟩ := everywhere_cons.mp hcounts
    obtain ⟨⟨-, hiinits⟩, hirest⟩ := everywhere_cons.mp hindexed
    exact ih (everywhere_append.mpr ⟨hcinits, hcrest⟩) (everywhere_append.mpr ⟨hiinits, hirest⟩) a hσ
  | @block _ inner _ σ σ' _ _ _ _ _ ih ih' =>
    intro hcounts hindexed a hσ
    obtain ⟨⟨-, hcinner⟩, hcrest⟩ := everywhere_cons.mp hcounts
    obtain ⟨⟨-, hiinner⟩, hirest⟩ := everywhere_cons.mp hindexed
    obtain ⟨htrace, hend⟩ := ih hcinner hiinner a hσ
    have hscope : leaveScope (declaredNames inner) σ σ' k = σ' k :=
      leaveScope_of_notMem (notMem_declaredNames hcinner)
    obtain ⟨htrace', hend'⟩ := ih' hcrest hirest _ (hscope.trans (hend _ rfl))
    refine ⟨indexedTrace_append.mpr ⟨htrace, htrace'⟩, ?_⟩
    intro σ' hσ'
    rw [hend' σ' hσ', assignmentsTo, assignmentsTo, assignmentsTo, List.countP_append, Nat.add_assoc]
  | blockStop _ ih =>
    intro hcounts hindexed a hσ
    exact ih (everywhere_cons.mp hcounts).1.2 (everywhere_cons.mp hindexed).1.2 a hσ
  | ifTrue _ _ _ ih =>
    intro hcounts hindexed a hσ
    obtain ⟨⟨-, hccases⟩, hcrest⟩ := everywhere_cons.mp hcounts
    obtain ⟨⟨-, hicases⟩, hirest⟩ := everywhere_cons.mp hindexed
    exact ih (everywhere_cons.mpr ⟨(everywhere_cons.mp hccases).1, hcrest⟩)
      (everywhere_cons.mpr ⟨(everywhere_cons.mp hicases).1, hirest⟩) a hσ
  | ifFalse _ _ _ ih =>
    intro hcounts hindexed a hσ
    obtain ⟨⟨-, hccases⟩, hcrest⟩ := everywhere_cons.mp hcounts
    obtain ⟨⟨-, hicases⟩, hirest⟩ := everywhere_cons.mp hindexed
    exact ih (everywhere_append.mpr ⟨(everywhere_cons.mp hccases).2, hcrest⟩)
      (everywhere_append.mpr ⟨(everywhere_cons.mp hicases).2, hirest⟩) a hσ
  | whileTrue _ _ _ ih =>
    intro hcounts hindexed a hσ
    have hcbody := everywhere_singleton.mp (everywhere_cons.mp hcounts).1.2
    have hibody := everywhere_singleton.mp (everywhere_cons.mp hindexed).1.2
    exact ih (everywhere_cons.mpr ⟨hcbody, hcounts⟩) (everywhere_cons.mpr ⟨hibody, hindexed⟩) a hσ
  | whileFalse _ _ _ ih =>
    intro hcounts hindexed a hσ
    exact ih (everywhere_cons.mp hcounts).2 (everywhere_cons.mp hindexed).2 a hσ
  | @substitution info' var access op rhe _ σ _ _ index v hindex hv _ ih =>
    intro hcounts hindexed a hσ
    obtain ⟨⟨hcount, -⟩, hcrest⟩ := everywhere_cons.mp hcounts
    obtain ⟨⟨hby, -⟩, hirest⟩ := everywhere_cons.mp hindexed
    have hcreation : isCreation n ⟨var, index, op⟩ = true → index = [modulus a field] := by
      intro h
      obtain ⟨hvar, hop⟩ := of_decide_eq_true h
      obtain ⟨_, _, heq⟩ := hby ⟨decide_eq_true hop, List.mem_singleton.mpr hvar.symm⟩
      cases heq
      cases hindex with
      | cons hhead htail =>
        cases htail
        cases hhead with
        | var => rw [hσ]
        | other h => cases h
    by_cases hvar : var = k
    · subst hvar
      obtain ⟨_, info₁, info₂, info₃, heq⟩ := hcount List.mem_cons_self
      cases heq
      have hnext := eval_increment hfield hσ (hv rfl)
      obtain ⟨htrace, hend⟩ := ih hcrest hirest (a + 1) (by rw [Function.update_self, hnext])
      refine ⟨⟨hcreation, ?_⟩, ?_⟩
      · rw [if_pos rfl]
        exact htrace
      · intro σ' hσ'
        rw [hend σ' hσ', assignmentsTo, assignmentsTo, List.countP_cons, decide_eq_true rfl, if_pos rfl,
          Nat.add_assoc, Nat.add_comm 1]
    · obtain ⟨htrace, hend⟩ := ih hcrest hirest a
        (by rw [Function.update_of_ne (Ne.symm hvar)]; exact hσ)
      refine ⟨⟨hcreation, ?_⟩, ?_⟩
      · rw [if_neg hvar]
        exact htrace
      · intro σ' hσ'
        rw [hend σ' hσ', assignmentsTo, assignmentsTo, List.countP_cons, decide_eq_false hvar,
          if_neg Bool.false_ne_true, Nat.add_zero]
  | underscoreSubstitution _ ih =>
    intro hcounts hindexed a hσ
    exact ih (everywhere_cons.mp hcounts).2 (everywhere_cons.mp hindexed).2 a hσ
  | constraintEquality _ ih =>
    intro hcounts hindexed a hσ
    exact ih (everywhere_cons.mp hcounts).2 (everywhere_cons.mp hindexed).2 a hσ
  | logCall _ ih =>
    intro hcounts hindexed a hσ
    exact ih (everywhere_cons.mp hcounts).2 (everywhere_cons.mp hindexed).2 a hσ
  | assert _ ih =>
    intro hcounts hindexed a hσ
    exact ih (everywhere_cons.mp hcounts).2 (everywhere_cons.mp hindexed).2 a hσ

/-! ## Indices of creations -/

/-- The indices with which `n` is created. -/
def creationIndices (n : String) (trace : List Event) : List (List ℤ) :=
  (trace.filter (isCreation n)).map Event.index

theorem modulus_ne {j : ℕ} (hj : 0 < j) (hlt : (j : ℤ) < field) :
    modulus (a : ℤ) field ≠ modulus ((a + j : ℕ) : ℤ) field := by
  have hfield : 0 < field := by omega
  rw [modulus_eq_emod hfield, modulus_eq_emod hfield, Nat.cast_add]
  intro h
  have hdvd : field ∣ (j : ℤ) := by
    have hsub : ((a : ℤ) + j - a) % field = 0 := Int.emod_eq_emod_iff_emod_sub_eq_zero.mp h.symm
    have hj : (a : ℤ) + j - a = j := by omega
    rw [hj] at hsub
    exact Int.dvd_of_emod_eq_zero hsub
  have hle := Int.le_of_dvd (by omega) hdvd
  omega

/-- With fewer increments than the field has elements no index comes twice. -/
theorem creationIndices_nodup (hne : n ≠ k) (trace : List Event) :
    ∀ before a, Separated n k before trace → IndexedTrace n k field a trace →
      (assignmentsTo k trace : ℤ) < field → (creationIndices n trace).Nodup ∧
        ∀ index ∈ creationIndices n trace, ∃ j : ℕ, (before = true → 0 < j) ∧
          j ≤ assignmentsTo k trace ∧ index = [modulus ((a + j : ℕ) : ℤ) field] := by
  induction trace with
  | nil => exact fun _ _ _ _ _ => ⟨List.nodup_nil, fun _ h => absurd h List.not_mem_nil⟩
  | cons ev trace ih =>
    rintro before a ⟨hbefore, hsep⟩ ⟨hindex, htrace⟩ hlt
    cases hev : isCreation n ev with
    | true =>
      have hvar : ev.var ≠ k := by
        obtain ⟨hvar, -⟩ := of_decide_eq_true hev
        exact fun h => hne (hvar.symm.trans h)
      have hcount : assignmentsTo k (ev :: trace) = assignmentsTo k trace := by
        rw [assignmentsTo, List.countP_cons, decide_eq_false hvar, if_neg Bool.false_ne_true]
        rfl
      rw [pending, if_pos hev] at hsep
      rw [if_neg hvar] at htrace
      rw [hcount] at hlt ⊢
      obtain ⟨hnodup, hmem⟩ := ih true a hsep htrace hlt
      have hcons : creationIndices n (ev :: trace) =
          [modulus (a : ℤ) field] :: creationIndices n trace := by
        rw [creationIndices, List.filter_cons_of_pos hev, List.map_cons, hindex hev]
        rfl
      rw [hcons]
      refine ⟨List.nodup_cons.mpr ⟨?_, hnodup⟩, ?_⟩
      · intro h
        obtain ⟨j, hj, hle, heq⟩ := hmem _ h
        exact modulus_ne (hj rfl) (by omega) (List.cons.inj heq).1
      · intro index h
        rcases List.mem_cons.mp h with rfl | h
        · refine ⟨0, fun htrue => ?_, Nat.zero_le _, rfl⟩
          rw [hbefore hev] at htrue
          cases htrue
        · obtain ⟨j, -, hle, heq⟩ := hmem index h
          refine ⟨j, fun htrue => ?_, hle, heq⟩
          rw [hbefore hev] at htrue
          cases htrue
    | false =>
      have hskip : creationIndices n (ev :: trace) = creationIndices n trace := by
        rw [creationIndices, List.filter_cons_of_neg (by rw [hev]; decide)]
        rfl
      rw [hskip]
      rw [pending, hev, if_neg Bool.false_ne_true] at hsep
      by_cases hvar : ev.var = k
      · have hcount : assignmentsTo k (ev :: trace) = assignmentsTo k trace + 1 := by
          rw [assignmentsTo, List.countP_cons, decide_eq_true hvar, if_pos rfl]
          rfl
        rw [if_pos hvar] at hsep htrace
        rw [hcount] at hlt ⊢
        obtain ⟨hnodup, hmem⟩ := ih false (a + 1) hsep htrace (by omega)
        refine ⟨hnodup, fun index h => ?_⟩
        obtain ⟨j, -, hle, heq⟩ := hmem index h
        refine ⟨j + 1, fun _ => Nat.succ_pos j, by omega, ?_⟩
        rw [heq, Nat.add_assoc, Nat.add_comm 1]
      · have hcount : assignmentsTo k (ev :: trace) = assignmentsTo k trace := by
          rw [assignmentsTo, List.countP_cons, decide_eq_false hvar, if_neg Bool.false_ne_true]
          rfl
        rw [if_neg hvar] at hsep htrace
        rw [hcount] at hlt ⊢
        exact ih before a hsep htrace hlt

theorem creationIndices_nodup_of_countP (h : trace.countP (isCreation n) ≤ 1) : (creationIndices n trace).Nodup := by
  rw [List.countP_eq_length_filter] at h
  have hlength : (creationIndices n trace).length ≤ 1 := by
    rw [creationIndices, List.length_map]
    exact h
  cases hindices : creationIndices n trace with
  | nil => exact List.nodup_nil
  | cons index indices =>
    rw [hindices, List.length_cons] at hlength
    have hnil : indices = [] := List.length_eq_zero_iff.mp (by omega)
    rw [hnil]
    exact List.nodup_singleton index

/-! ## Creations of several names -/

/-- The event is a creation of one of the names. -/
def isCreationOf (names : List String) (ev : Event) : Bool := ev.var ∈ names ∧ ev.op = .assignVar

/-- Which component each creation of one of the names refers to. -/
def instances (names : List String) (trace : List Event) : List (String × List ℤ) :=
  (trace.filter (isCreationOf names)).map fun ev => (ev.var, ev.index)

theorem creationIndices_eq (hn : n ∈ names) (trace : List Event) : creationIndices n trace =
      ((instances names trace).filter fun i => i.1 = n).map Prod.snd := by
  induction trace with
  | nil => rfl
  | cons ev trace ih =>
    rw [creationIndices] at ih ⊢
    rw [instances] at ih ⊢
    cases hof : isCreationOf names ev with
    | true =>
      rw [List.filter_cons_of_pos hof, List.map_cons]
      by_cases hvar : ev.var = n
      · have hev : isCreation n ev = true :=
          decide_eq_true ⟨hvar, (of_decide_eq_true hof).2⟩
        rw [List.filter_cons_of_pos hev, List.map_cons, List.filter_cons, if_pos (decide_eq_true hvar),
          List.map_cons, ih]
      · have hev : isCreation n ev = false := decide_eq_false fun h => hvar h.1
        rw [List.filter_cons_of_neg (by rw [hev]; decide), List.filter_cons,
          if_neg (fun h => hvar (of_decide_eq_true h)), ih]
    | false =>
      have hev : isCreation n ev = false := by
        refine decide_eq_false fun h => ?_
        have hmem : ev.var ∈ names := by
          rw [h.1]
          exact hn
        exact of_decide_eq_false hof ⟨hmem, h.2⟩
      rw [List.filter_cons_of_neg (by rw [hev]; decide),
        List.filter_cons_of_neg (by rw [hof]; decide), ih]

theorem mem_instances {i : String × List ℤ} (h : i ∈ instances names trace) : i.1 ∈ names := by
  obtain ⟨ev, hev, rfl⟩ := List.mem_map.mp h
  exact (of_decide_eq_true (List.mem_filter.mp hev).2).1

/-- Pairs are different if those with the same first component are. -/
theorem nodup_of_fst {α β : Type} [DecidableEq α] {l : List (α × β)}
    (h : ∀ a ∈ l.map Prod.fst, ((l.filter fun x => x.1 = a).map Prod.snd).Nodup) : l.Nodup := by
  induction l with
  | nil => exact List.nodup_nil
  | cons x l ih =>
    have hx := h x.1 List.mem_cons_self
    rw [List.filter_cons, if_pos (decide_eq_true rfl), List.map_cons, List.nodup_cons] at hx
    refine List.nodup_cons.mpr ⟨?_, ih ?_⟩
    · intro hmem
      exact hx.1 (List.mem_map_of_mem (List.mem_filter.mpr ⟨hmem, decide_eq_true rfl⟩))
    · intro a ha
      refine (h a (List.mem_cons_of_mem _ ha)).sublist ?_
      exact ((List.sublist_cons_self x l).filter _).map _

theorem instances_nodup (h : ∀ n ∈ names, (creationIndices n trace).Nodup) : (instances names trace).Nodup := by
  apply nodup_of_fst
  intro n hn
  obtain ⟨i, hi, rfl⟩ := List.mem_map.mp hn
  rw [← creationIndices_eq (mem_instances hi)]
  exact h _ (mem_instances hi)

end Circom.Parser
