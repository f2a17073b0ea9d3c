import Circom.Parser.Proofs.Completeness
import Circom.Parser.Proofs.ExpandedLoops

/-!
# Instances of anonymous components

In a run of a desugared template two evaluations of anonymous components never refer to the same component,
as long as no generated name is used elsewhere and no counter wraps around.
-/

namespace Circom.Parser

open Circom.Ast
open Circom.Algebra.ModularArithmetic (asBool modulus modulus_eq_emod)
open Circom.Lib (Occurs bind_eq_ok forall₂_mem_left forall₂_mem_right)

variable {Q : Statement → Prop} {n k : String}
variable {op : AssignOp} {rhe : Expression} {access : List Access} {stmts : List Statement} {info : Meta}
variable {s : Statement}

/-! ## The removal of tuples -/

/-- Each assignment of an element is one to a variable on the left side, or touches no name. -/
theorem localNames_elementSubstitutions {values1 values2 : List Expression} {substs : List Statement}
    (h : elementSubstitutions info op values1 values2 = .ok substs) :
    ∀ t ∈ substs, t.children = [] ∧ (localNames t = [] ∨ ∃ info' name access e,
      .var info' name access ∈ values1 ∧ t = .substitution info' name access op e) := by
  induction values1 generalizing values2 substs with
  | nil =>
    cases h
    exact fun _ h => absurd h List.not_mem_nil
  | cons lhe values1 ih =>
    cases values2 with
    | nil =>
      cases h
      exact fun _ h => absurd h List.not_mem_nil
    | cons rhe values2 =>
      cases lhe with
      | var info' name access =>
        obtain ⟨rest, hrest, h⟩ := bind_eq_ok h
        cases h
        intro t ht
        rcases List.mem_cons.mp ht with rfl | ht
        · split_ifs
          · exact ⟨rfl, Or.inr ⟨info', name, access, rhe, List.mem_cons_self, rfl⟩⟩
          · exact ⟨rfl, Or.inl rfl⟩
        · obtain ⟨hchildren, hnil | ⟨info', name, access, e, hvar, heq⟩⟩ := ih hrest t ht
          · exact ⟨hchildren, Or.inl hnil⟩
          · exact ⟨hchildren, Or.inr ⟨info', name, access, e, List.mem_cons_of_mem _ hvar, heq⟩⟩
      | _ => cases h

/-- The removal keeps an assignment as it is, or makes it one to `_`. -/
theorem removeTuples_substitution {var : String} {s' : Statement}
    (h : removeTuplesFromStatement (.substitution info var access op rhe) = .ok s') :
    s' = .substitution info var access op rhe ∨ s' = .underscoreSubstitution info op rhe ∧ var = "_" := by
  obtain ⟨rhe', hr, h⟩ := bind_eq_ok h
  obtain ⟨-, rfl⟩ := removeTupleFromExpression_eq_ok hr
  cases htuple : rhe.isTuple with
  | true =>
    cases rhe with
    | tuple => cases h
    | _ => cases htuple
  | false =>
    rw [flattened_of_not_tuple htuple, if_neg (by rw [htuple]; exact Bool.false_ne_true)] at h
    split_ifs at h with hvar
    · cases h
      exact Or.inl rfl
    · cases h
      exact Or.inr ⟨rfl, not_not.mp hvar⟩

theorem localNames_removeTuples {s' : Statement} (h : removeTuplesFromStatement s = .ok s')
    (hmult : s.isMultSubstitution = false) : s' = s ∨ localNames s' = [] := by
  cases s with
  | multSubstitution => cases hmult
  | substitution info var access op rhe =>
    rcases removeTuples_substitution h with rfl | ⟨rfl, -⟩
    · exact Or.inl rfl
    · exact Or.inr rfl
  | ifThenElse info cond ifCase elseCase =>
    right
    cases elseCase with
    | none =>
      obtain ⟨ifOk, -, h⟩ := bind_eq_ok h
      cases h
      rfl
    | some elseCase =>
      obtain ⟨ifOk, -, h⟩ := bind_eq_ok h
      obtain ⟨elseOk, -, h⟩ := bind_eq_ok h
      cases h
      rfl
  | whileStmt | logCall | initializationBlock | block =>
    obtain ⟨result, -, h⟩ := bind_eq_ok h
    cases h
    exact Or.inr rfl
  | underscoreSubstitution => cases h
  | returnStmt | declaration | constraintEquality | assert =>
    cases h
    exact Or.inl rfl

/-- A property of assignments that a tuple hands on to its elements. -/
structure HandedOn (Q : Statement → Prop) : Prop where
  none : ∀ s, localNames s = [] → Q s
  element : ∀ {info lhe op rhe info' name access e}, Q (.multSubstitution info lhe op rhe) →
    .var info' name access ∈ leaves lhe → Q (.substitution info' name access op e)

theorem mem_localNames_of_leaf {info' : Meta} {lhe : Expression} {name : String}
    (h : .var info' name access ∈ leaves lhe) : name ∈ localNames (.multSubstitution info lhe op rhe) :=
  List.mem_filterMap.mpr ⟨_, h, rfl⟩

theorem creates_of_element {info' : Meta} {lhe e : Expression} {name : String}
    (hvar : .var info' name access ∈ leaves lhe) (h : Creates n (.substitution info' name access op e)) :
    Creates n (.multSubstitution info lhe op rhe) := by
  obtain ⟨hassign, hmem⟩ := h
  rw [List.mem_singleton.mp hmem]
  exact ⟨hassign, mem_localNames_of_leaf hvar⟩

theorem handedOn_noCreation (n : String) : HandedOn fun t => ¬ Creates n t where
  none s hs h := by
    rw [Creates, hs] at h
    exact absurd h.2 List.not_mem_nil
  element h hvar hc := h (creates_of_element hvar hc)

theorem handedOn_createdAt (n : String) (access : List Access) : HandedOn (CreatedAt n access) where
  none s hs h := by
    rw [Creates, hs] at h
    exact absurd h.2 List.not_mem_nil
  element h hvar hc := by
    obtain ⟨_, _, heq⟩ := h (creates_of_element hvar hc)
    cases heq

theorem handedOn_countsUp (k : String) : HandedOn (CountsUp k) where
  none s hs h := by
    rw [hs] at h
    exact absurd h List.not_mem_nil
  element h hvar hmem := by
    rw [← List.mem_singleton.mp hmem] at hvar
    obtain ⟨_, _, _, _, heq⟩ := h (mem_localNames_of_leaf hvar)
    cases heq

theorem HandedOn.removeTuples (hQ : HandedOn Q) (s : Statement) :
    ∀ s', removeTuplesFromStatement s = .ok s' → Everywhere Q [s] → Everywhere Q [s'] := by
  induction s using Statement.children_induction with
  | step s ih =>
    intro s' h hs
    obtain ⟨hlocal, hchildren⟩ := everywhere_singleton.mp hs
    rcases removeTuplesFromStatement_eq_ok h with hkept |
      ⟨info, lhe, op, rhe, substs, rfl, rfl, hsubsts, -⟩
    · refine everywhere_singleton.mpr ⟨?_, ?_⟩
      · rcases localNames_removeTuples h hkept.not_mult with rfl | hnil
        · exact hlocal
        · exact hQ.none s' hnil
      · intro c' hc'
        obtain ⟨c, hc, hremove⟩ := forall₂_mem_right hkept.children hc'
        have hc : Everywhere Q [c'] := ih c hc c' hremove fun t ht => by
          rw [List.mem_singleton.mp ht]
          exact hchildren c hc
        exact hc c' List.mem_cons_self
    · refine everywhere_singleton.mpr ⟨hQ.none _ rfl, ?_⟩
      intro t ht
      obtain ⟨hnil, hnames⟩ := localNames_elementSubstitutions hsubsts t ht
      have hleaf : Everywhere Q [t] := by
        refine everywhere_leaf hnil ?_
        rcases hnames with hnone | ⟨info', name, access, e, hvar, rfl⟩
        · exact hQ.none t hnone
        · exact hQ.element hlocal hvar
      exact hleaf t List.mem_cons_self

/-- The removal from each statement of a sequence. -/
abbrev RemovedFromEach : List Statement → List Statement → Prop :=
  List.Forall₂ fun s s' => removeTuplesFromStatement s = .ok s'

theorem HandedOn.removeTuplesFromEach (hQ : HandedOn Q) {stmts' : List Statement} (h : RemovedFromEach stmts stmts')
    (hs : Everywhere Q stmts) : Everywhere Q stmts' := by
  induction h with
  | nil => exact everywhere_nil
  | cons hremove _ ih =>
    obtain ⟨hhead, htail⟩ := everywhere_cons.mp hs
    have hnew := hQ.removeTuples _ _ hremove (everywhere_singleton.mpr hhead)
    exact everywhere_cons.mpr ⟨everywhere_singleton.mp hnew, ih htail⟩

theorem once_removeTuples (h : Once n stmts) : ∀ stmts', RemovedFromEach stmts stmts' → Once n stmts' := by
  have hno := handedOn_noCreation n
  induction h with
  | absent h => exact fun _ hall => .absent (hno.removeTuplesFromEach hall h)
  | tail hs _ ih =>
    intro stmts' hall
    cases hall with
    | cons hremove hrest => exact .tail (hno.removeTuples _ _ hremove hs) (ih _ hrest)
  | substitution h =>
    intro stmts' hall
    cases hall with
    | cons hremove hrest =>
      have htail := hno.removeTuplesFromEach hrest h
      rcases removeTuples_substitution hremove with rfl | ⟨rfl, -⟩
      · exact .substitution htail
      · exact .tail (everywhere_leaf rfl fun h => absurd h.2 List.not_mem_nil) (.absent htail)
  | block _ h ih =>
    intro stmts' hall
    cases hall with
    | cons hremove hrest =>
      obtain ⟨inner, hinner, heq⟩ := bind_eq_ok hremove
      cases heq
      exact .block (ih _ (removeTuplesFromStatements_eq_ok hinner)) (hno.removeTuplesFromEach hrest h)
  | initializationBlock _ h ih =>
    intro stmts' hall
    cases hall with
    | cons hremove hrest =>
      obtain ⟨inner, hinner, heq⟩ := bind_eq_ok hremove
      cases heq
      exact .initializationBlock (ih _ (removeTuplesFromStatements_eq_ok hinner))
        (hno.removeTuplesFromEach hrest h)
  | @ifThenElse _ _ _ elseCase _ _ _ h ihif ihelse =>
    intro stmts' hall
    cases hall with
    | cons hremove hrest =>
      have htail := hno.removeTuplesFromEach hrest h
      cases elseCase with
      | none =>
        obtain ⟨ifOk, hif, heq⟩ := bind_eq_ok hremove
        cases heq
        exact .ifThenElse (ihif _ (.cons hif .nil)) (.absent everywhere_nil) htail
      | some elseCase =>
        obtain ⟨ifOk, hif, heq⟩ := bind_eq_ok hremove
        obtain ⟨elseOk, helse, heq⟩ := bind_eq_ok heq
        cases heq
        exact .ifThenElse (ihif _ (.cons hif .nil)) (ihelse _ (.cons helse .nil)) htail

theorem inLoop_removeTuples (hk : k ≠ "_") (h : InLoop n k s) :
    ∀ s', removeTuplesFromStatement s = .ok s' → InLoop n k s' := by
  induction h with
  | body hb hstep =>
    intro s' hremove
    obtain ⟨stmts, hstmts, heq⟩ := bind_eq_ok hremove
    cases heq
    obtain ⟨b', hb', hstmts⟩ := bind_eq_ok hstmts
    obtain ⟨rest, hrest, heq⟩ := bind_eq_ok hstmts
    cases heq
    obtain ⟨step', hstep', hrest⟩ := bind_eq_ok hrest
    cases hrest
    refine .body (once_removeTuples hb _ (.cons hb' .nil)) ?_
    obtain ⟨_, _, _, _, rfl⟩ := hstep
    rcases removeTuples_substitution hstep' with rfl | ⟨-, hunder⟩
    · exact ⟨_, _, _, _, rfl⟩
    · exact absurd hunder hk
  | @node s hs _ ih =>
    intro s' hremove
    rcases removeTuplesFromStatement_eq_ok hremove with hkept |
      ⟨info, lhe, op, rhe, substs, rfl, rfl, hsubsts, -⟩
    · refine .node ?_ fun c' hc' => ?_
      · rcases localNames_removeTuples hremove hkept.not_mult with rfl | hnil
        · exact hs
        · exact (handedOn_noCreation n).none s' hnil
      · obtain ⟨c, hc, hcremove⟩ := forall₂_mem_right hkept.children hc'
        exact ih c hc c' hcremove
    · refine .node (fun h => absurd h.2 List.not_mem_nil) fun t ht => ?_
      obtain ⟨hnil, hnames⟩ := localNames_elementSubstitutions hsubsts t ht
      apply inLoop_of_noCreation
      refine everywhere_leaf hnil ?_
      rcases hnames with hnone | ⟨info', name, access, e, hvar, rfl⟩
      · exact (handedOn_noCreation n).none t hnone
      · exact fun hc => hs (creates_of_element hvar hc)

/-! ## Runs of a desugared body -/

section Runs

variable {field : ℤ} {stmts : List Statement} {σ : Store} {trace : List Event} {out : Option Store}

theorem exec_of_block (h : Exec field [.block info stmts] σ trace out) : ∃ out', Exec field stmts σ trace out' := by
  cases h with
  | stop => exact ⟨none, .stop⟩
  | block h h' =>
    cases h' with
    | stop =>
      rw [List.append_nil]
      exact ⟨_, h⟩
    | done =>
      rw [List.append_nil]
      exact ⟨_, h⟩
  | blockStop h => exact ⟨none, h⟩

theorem exec_block (info : Meta) (h : Exec field stmts σ trace out) :
    ∃ out', Exec field [.block info stmts] σ trace out' := by
  cases out with
  | none => exact ⟨none, .blockStop h⟩
  | some σ' =>
    have hblock : Exec field [.block info stmts] σ (trace ++ []) _ := .block h .done
    rw [List.append_nil] at hblock
    exact ⟨_, hblock⟩

theorem creationIndices_append (n : String) (trace trace' : List Event) :
    creationIndices n (trace ++ trace') = creationIndices n trace ++ creationIndices n trace' := by
  rw [creationIndices, List.filter_append, List.map_append]
  rfl

theorem creationIndices_eq_nil (h : trace.countP (isCreation n) = 0) : creationIndices n trace = [] := by
  rw [creationIndices, List.map_eq_nil_iff, List.filter_eq_nil_iff]
  exact fun ev hev hcreation => List.countP_eq_zero.mp h ev hev hcreation

/-- The first assignments leave zero in each counter. -/
theorem zero_of_exec (h : Exec field stmts σ trace out) :
    (∀ s ∈ stmts, ∃ k', IsZeroing k' s) → ∀ σ', out = some σ' →
      (σ k = modulus 0 field ∨ ∃ s ∈ stmts, IsZeroing k s) → σ' k = modulus 0 field ∧
        ((∃ s ∈ stmts, IsZeroing k s) → 0 < assignmentsTo k trace) := by
  induction stmts generalizing σ trace with
  | nil =>
    rintro - σ' rfl hσ
    cases h with
    | done =>
      refine ⟨?_, fun hex => absurd hex.choose_spec.1 List.not_mem_nil⟩
      rcases hσ with hσ | ⟨_, hs, -⟩
      · exact hσ
      · exact absurd hs List.not_mem_nil
  | cons s stmts ih =>
    intro hzero σ' hout hσ
    obtain ⟨k', info, info₁, rfl⟩ := hzero s List.mem_cons_self
    cases h with
    | stop => cases hout
    | @substitution _ _ _ _ _ _ _ trace' _ index v _ hv hrest =>
      have hvalue : v = modulus 0 field := by
        cases hv rfl with
        | number => rfl
        | other h => cases h
      have hall := fun t ht => hzero t (List.mem_cons_of_mem _ ht)
      have hcount : assignmentsTo k (⟨k', index, .assignVar⟩ :: trace') =
          assignmentsTo k trace' + if k' = k then 1 else 0 := by
        rw [assignmentsTo, List.countP_cons]
        by_cases hk : k' = k
        · rw [if_pos (decide_eq_true hk), if_pos hk]
          rfl
        · rw [if_neg (fun h => hk (of_decide_eq_true h)), if_neg hk]
          rfl
      by_cases hk : k' = k
      · have hstart : Function.update σ k' v k = modulus 0 field := by
          rw [hk, Function.update_self, hvalue]
        obtain ⟨hend, -⟩ := ih hrest hall σ' hout (Or.inl hstart)
        refine ⟨hend, fun _ => ?_⟩
        rw [hcount, if_pos hk]
        exact Nat.succ_pos _
      · have hlater : ∀ {t : Statement}, t ∈ Statement.substitution info k' [] .assignVar
            (.number info₁ 0) :: stmts → IsZeroing k t → ∃ s ∈ stmts, IsZeroing k s := by
          intro t ht hkt
          rcases List.mem_cons.mp ht with rfl | ht
          · obtain ⟨_, _, heq⟩ := hkt
            cases heq
            exact absurd rfl hk
          · exact ⟨t, ht, hkt⟩
        have hstart : Function.update σ k' v k = modulus 0 field ∨ ∃ s ∈ stmts, IsZeroing k s := by
          rcases hσ with hσ | ⟨t, ht, hkt⟩
          · refine Or.inl ?_
            rw [Function.update_of_ne (Ne.symm hk)]
            exact hσ
          · exact Or.inr (hlater ht hkt)
        obtain ⟨hend, hpos⟩ := ih hrest hall σ' hout hstart
        refine ⟨hend, fun hex => ?_⟩
        obtain ⟨t, ht, hkt⟩ := hex
        rw [hcount, if_neg hk]
        exact hpos (hlater ht hkt)

/-- A run of a body with first assignments in front, for one component. -/
theorem creationIndices_nodup_of_exec (info : Meta) {inits subs : List Statement} (hfield : 0 < field)
    (h : Exec field (inits ++ subs ++ stmts) σ trace out) (hinits : NoCreation n (inits ++ subs))
    (hzero : ∀ s ∈ subs, ∃ k, IsZeroing k s)
    (hcreated : CreatedOnce none n [.block info stmts] ∨ ∃ k, n ≠ k ∧ (∃ s ∈ subs, IsZeroing k s) ∧
      CreatedInLoop n k [.block info stmts] ∧ Everywhere (CountsUp k) [.block info stmts] ∧
      (assignmentsTo k trace : ℤ) ≤ field) : (creationIndices n trace).Nodup := by
  rcases h.appendRun (inits ++ subs) stmts rfl with
    ⟨σ', trace', trace'', hfirst, hrest, rfl⟩ | ⟨-, hfirst⟩
  · rw [creationIndices_append, creationIndices_eq_nil (countP_of_noCreation hfirst hinits),
      List.nil_append]
    obtain ⟨out', hblock⟩ := exec_block info hrest
    rcases hcreated with ⟨honce, -⟩ | ⟨k, hne, hsub, ⟨hloop, info', hat⟩, hcounts, hbound⟩
    · exact creationIndices_nodup_of_countP (countP_of_once hblock honce)
    · rcases hfirst.appendRun inits subs rfl with
        ⟨σ₀, trace₀, trace₁, -, hsubs, rfl⟩ | ⟨hnone, -⟩
      · obtain ⟨hend, hpos⟩ := zero_of_exec hsubs hzero σ' rfl (Or.inr hsub)
        have hsep := (separated_of_inLoop hne hblock hloop).1
        have hindexed := (indexedTrace_of_exec hfield hblock hcounts hat 0 hend).1
        refine (creationIndices_nodup hne trace'' false 0 hsep hindexed ?_).1
        have hsum : assignmentsTo k (trace₀ ++ trace₁ ++ trace'') =
            assignmentsTo k trace₀ + assignmentsTo k trace₁ + assignmentsTo k trace'' := by
          rw [assignmentsTo, List.countP_append, List.countP_append]
          rfl
        have hone := hpos hsub
        omega
      · cases hnone
  · rw [creationIndices_eq_nil (countP_of_noCreation hfirst hinits)]
    exact List.nodup_nil

end Runs

/-! ## Templates -/

theorem removeTuples_declaration {d : Statement} (h : d.isDeclaration = true) :
    removeTuplesFromStatement d = .ok d := by
  cases d with
  | declaration => rfl
  | _ => cases h

theorem removeTuples_zeroing (hk : k ≠ "_") (h : IsZeroing k s) : removeTuplesFromStatement s = .ok s := by
  obtain ⟨info, info₁, rfl⟩ := h
  exact if_pos hk

theorem removeTuplesFromStatements_append {l result : List Statement}
    (hl : ∀ s ∈ l, removeTuplesFromStatement s = .ok s) (h : removeTuplesFromStatements (l ++ stmts) = .ok result) :
    ∃ stmts', removeTuplesFromStatements stmts = .ok stmts' ∧ result = l ++ stmts' := by
  induction l generalizing result with
  | nil => exact ⟨result, h, rfl⟩
  | cons s l ih =>
    obtain ⟨s', hs', h⟩ := bind_eq_ok h
    obtain ⟨rest, hrest, h⟩ := bind_eq_ok h
    cases h
    rw [hl s List.mem_cons_self] at hs'
    cases hs'
    obtain ⟨stmts', hstmts', rfl⟩ := ih (fun s hs => hl s (List.mem_cons_of_mem _ hs)) hrest
    exact ⟨stmts', hstmts', rfl⟩

theorem removeTuples_declarations {xtype : VariableType} {inits : List Statement}
    (h : ∀ d ∈ inits, d.isDeclaration = true) :
    removeTuplesFromStatement (.initializationBlock info xtype inits) =
      .ok (.initializationBlock info xtype inits) := by
  have hinits : ∀ l : List Statement, (∀ d ∈ l, d.isDeclaration = true) →
      removeTuplesFromStatements l = .ok l := by
    intro l
    induction l with
    | nil => exact fun _ => rfl
    | cons d l ih =>
      intro hl
      rw [removeTuplesFromStatements, removeTuples_declaration (hl d List.mem_cons_self),
        ih fun d hd => hl d (List.mem_cons_of_mem _ hd)]
      rfl
  rw [removeTuplesFromStatement, hinits inits h]
  rfl

/-- The counters that a desugared body declares first. -/
def loopCounters : Statement → List String
  | .block _ (.initializationBlock _ _ counters :: _) => declaredNames counters
  | _ => []

/-- The components that it declares after them. -/
def anonymousComponents : Statement → List String
  | .block _ (_ :: .initializationBlock _ _ components :: _) => declaredNames components
  | _ => []

/-- The generated names are different, and if the old body uses none of them, a run in which no counter
is assigned more values than the field has creates each component at most once. -/
structure NeverClash (body body' : Statement) : Prop where
  /-- No two components or counters have one name. -/
  names : (anonymousComponents body' ++ loopCounters body').Nodup
  /-- No component is created twice in a run. -/
  instances : (∀ n ∈ anonymousComponents body' ++ loopCounters body', Untouched n [body]) →
    ∀ (field : ℤ) (σ : Store) (trace : List Event) (out : Option Store), 0 < field →
      Exec field [body'] σ trace out →
      (∀ k ∈ loopCounters body', (assignmentsTo k trace : ℤ) ≤ field) →
      (instances (anonymousComponents body') trace).Nodup

theorem notMem_of_declaration {d : Statement} (h : d.isDeclaration = true) (n : String) :
    ¬ Creates n d := by
  rintro ⟨hassign, -⟩
  cases d with
  | declaration => cases hassign
  | _ => cases h

theorem noCreation_inits {vars comps subs : List Statement} {counters : List String}
    (hvars : ∀ d ∈ vars, d.isDeclaration = true) (hcomps : ∀ d ∈ comps, d.isDeclaration = true)
    (hsubs : ∀ s ∈ subs, ∃ k ∈ counters, IsZeroing k s) (hn : n ∉ counters) :
    NoCreation n ([.initializationBlock info .var vars, .initializationBlock info .component comps] ++
      subs) := by
  have hdeclarations : ∀ {l : List Statement}, (∀ d ∈ l, d.isDeclaration = true) →
      NoCreation n l := by
    intro l hl d hd
    have hleaf : NoCreation n [d] := by
      refine everywhere_leaf ?_ (notMem_of_declaration (hl d hd) n)
      cases d with
      | declaration => rfl
      | _ => cases hl _ hd
    exact hleaf d List.mem_cons_self
  have hnone : ∀ xtype inits, ¬ Creates n (.initializationBlock info xtype inits) :=
    fun _ _ h => absurd h.2 List.not_mem_nil
  refine everywhere_append.mpr ⟨everywhere_cons.mpr ⟨⟨hnone _ _, hdeclarations hvars⟩,
    everywhere_singleton.mpr ⟨hnone _ _, hdeclarations hcomps⟩⟩, ?_⟩
  intro s hs
  obtain ⟨k, hk, info', info₁, rfl⟩ := hsubs s hs
  have hleaf : NoCreation n [.substitution info' k [] .assignVar (.number info₁ 0)] := by
    refine everywhere_leaf rfl fun h => hn ?_
    rw [List.mem_singleton.mp h.2]
    exact hk
  exact hleaf _ List.mem_cons_self

/-- The body that a desugared template has. -/
theorem desugarTemplate_body {templates : List (String × TemplateData)} {fileLib : FileLibrary}
    {t t' : TemplateData} (h : desugarTemplate templates fileLib t = .ok t') :
    ∃ new info stmts stmts', removeAnonymousFromStatement templates fileLib none t.body = .ok new ∧
      new.body = .block info stmts ∧
      removeTuplesFromStatement (.block info stmts) = .ok (.block info stmts') ∧
      t'.body = withInits new info stmts' := by
  obtain ⟨-, new, info, stmts, newBody, hnew, hbody, -, hremove, rfl⟩ := desugarTemplate_eq_ok h
  have hexpanded := expanded_statement t.body none new hnew
  have hdeclarations := hexpanded.declarations
  obtain ⟨result, hresult, heq⟩ := bind_eq_ok hremove
  cases heq
  have hfixed : ∀ s ∈ [.initializationBlock info .var new.initVariables,
      .initializationBlock info .component new.initComponents] ++ new.substitutions,
      removeTuplesFromStatement s = .ok s := by
    intro s hs
    rcases List.mem_append.mp hs with hs | hs
    · rcases List.mem_cons.mp hs with rfl | hs
      · exact removeTuples_declarations fun d hd => hdeclarations d (List.mem_append_right _ hd)
      · rw [List.mem_singleton.mp hs]
        exact removeTuples_declarations fun d hd => hdeclarations d (List.mem_append_left _ hd)
    · obtain ⟨k, hk, hzero⟩ := hexpanded.zeroing s hs
      refine removeTuples_zeroing (fun hunder => ?_) hzero
      rw [hunder] at hk
      exact hexpanded.names.ne_underscore (List.mem_append_right _ hk)
  obtain ⟨stmts', hstmts', rfl⟩ := removeTuplesFromStatements_append hfixed hresult
  refine ⟨new, info, stmts, stmts', hnew, hbody, ?_, rfl⟩
  rw [removeTuplesFromStatement, hstmts']
  rfl

theorem desugarTemplate_neverClash {templates : List (String × TemplateData)} {fileLib : FileLibrary}
    {t t' : TemplateData} (h : desugarTemplate templates fileLib t = .ok t')
    (hstarts : (nodeStarts t.body).Nodup) : NeverClash t.body t'.body := by
  obtain ⟨new, info, stmts, stmts', hnew, hbody, hremove, hbody'⟩ := desugarTemplate_body h
  have hexpanded := expanded_statement t.body none new hnew
  rw [hbody] at hexpanded
  have hnames : (declaredNames new.initComponents ++ declaredNames new.initVariables).Nodup := by
    have hall := hexpanded.names
    rw [nodeStartsOfEach_singleton] at hall
    exact hall.nodup hstarts
  have hcomponents : anonymousComponents t'.body = declaredNames new.initComponents := by
    rw [hbody']
    rfl
  have hcounters : loopCounters t'.body = declaredNames new.initVariables := by
    rw [hbody']
    rfl
  constructor
  · rw [hcomponents, hcounters]
    exact hnames
  · intro huntouched field σ trace out hfield hrun hbound
    rw [hcomponents, hcounters] at huntouched
    rw [hcounters] at hbound
    rw [hcomponents]
    have hfresh : Fresh (declaredNames new.initComponents ++ declaredNames new.initVariables)
        [t.body] := ⟨hnames, huntouched⟩
    apply instances_nodup
    intro n hn
    rw [hbody'] at hrun
    obtain ⟨out', hrun⟩ := exec_of_block hrun
    have hnot : ∀ k ∈ declaredNames new.initVariables, n ≠ k := by
      rintro k hk rfl
      exact (List.nodup_append.mp hnames).2.2 n hn n hk rfl
    have hinits : NoCreation n ([.initializationBlock info .var new.initVariables,
        .initializationBlock info .component new.initComponents] ++ new.substitutions) :=
      noCreation_inits (fun d hd => hexpanded.declarations d (List.mem_append_right _ hd))
        (fun d hd => hexpanded.declarations d (List.mem_append_left _ hd)) hexpanded.zeroing
        fun hmem => hnot n hmem rfl
    have hall : RemovedFromEach [.block info stmts] [.block info stmts'] := .cons hremove .nil
    refine creationIndices_nodup_of_exec info hfield hrun hinits
      (fun s hs => (hexpanded.zeroing s hs).imp fun k h => h.2) ?_
    rcases hexpanded.component hfresh n hn with ⟨honce, hat⟩ | ⟨k, hk, hloop, info', hat⟩
    · exact Or.inl ⟨once_removeTuples honce _ hall,
        (handedOn_createdAt n _).removeTuplesFromEach hall hat⟩
    · have hunder : k ≠ "_" := by
        rintro rfl
        exact hexpanded.names.ne_underscore (List.mem_append_right _ hk)
      refine Or.inr ⟨k, hnot k hk, hexpanded.zeroed k hk, ⟨?_, info',
        (handedOn_createdAt n _).removeTuplesFromEach hall hat⟩, ?_, hbound k hk⟩
      · intro b hb
        rw [List.mem_singleton.mp hb]
        exact inLoop_removeTuples hunder (hloop _ List.mem_cons_self) _ hremove
      · exact (handedOn_countsUp k).removeTuplesFromEach hall (hexpanded.counter hfresh k hk)

/-- Distinct nodes of a body start at different positions, so in a run of a desugared template two
evaluations of anonymous components refer to different ones. -/
theorem applySyntacticSugar_neverClash {archive archive' : ProgramArchive}
    (h : applySyntacticSugar archive = .ok archive')
    (hstarts : ∀ t ∈ archive.templates, (nodeStarts t.2.body).Nodup) :
    List.Forall₂ (fun t t' => NeverClash t.2.body t'.2.body) archive.templates
      archive'.templates := by
  rw [applySyntacticSugar] at h
  split_ifs at h
  obtain ⟨templates, htemplates, h⟩ := bind_eq_ok h
  obtain ⟨functions, -, h⟩ := bind_eq_ok h
  cases h
  have hall := mapValues_eq_ok htemplates
  clear htemplates
  have hgeneral : ∀ {l : List (String × TemplateData)} {l' : List (String × TemplateData)},
      List.Forall₂ (fun t t' => desugarTemplate archive.templates archive.fileLibrary t.2 = .ok t'.2)
        l l' → (∀ t ∈ l, (nodeStarts t.2.body).Nodup) →
      List.Forall₂ (fun t t' => NeverClash t.2.body t'.2.body) l l' := by
    intro l l' hl
    induction hl with
    | nil => exact fun _ => .nil
    | cons hdesugar _ ih =>
      intro hnodup
      refine .cons (desugarTemplate_neverClash hdesugar (hnodup _ List.mem_cons_self)) (ih ?_)
      exact fun t ht => hnodup t (List.mem_cons_of_mem _ ht)
  exact hgeneral hall hstarts

/-- A file with `template A() { signal output o; o <== 1; }` in its first line and a template `M` with the
given body in its second. -/
def exampleFile (body : Statement) : ProgramArchive where
  fileLibrary := ⟨fun start _ => some (if start < 43 then 1 else 2)⟩
  functions := []
  templates := [("A", ⟨"A", .block ⟨0, 13, some 0⟩ [
      .initializationBlock ⟨1, 15, some 0⟩ (.signal .output [])
        [.declaration ⟨2, 15, some 0⟩ (.signal .output []) "o" [] true false],
      .substitution ⟨3, 32, some 0⟩ "o" [] .assignConstraintSignal (.number ⟨4, 38, some 0⟩ 1)],
      [], ∅, [], ["o"]⟩),
    ("M", ⟨"M", body, [], ∅, [], []⟩)]
  buses := []
  initialTemplateCall := .call ⟨5, 120, some 0⟩ "M" []

/-- `{ signal x; while (1) { x <== A()(); } }` -/
def exampleLoop : Statement :=
  .block ⟨6, 56, some 0⟩ [
    .initializationBlock ⟨7, 58, some 0⟩ (.signal .intermediate [])
      [.declaration ⟨8, 58, some 0⟩ (.signal .intermediate []) "x" [] true false],
    .whileStmt ⟨9, 68, some 0⟩ (.number ⟨10, 75, some 0⟩ 1) (.block ⟨11, 78, some 0⟩
      [.substitution ⟨12, 80, some 0⟩ "x" [] .assignConstraintSignal (exampleCall 86 [])])]

theorem applySyntacticSugar_neverClash_loop :
    ∃ archive', applySyntacticSugar (exampleFile exampleLoop) = .ok archive' ∧
      List.Forall₂ (fun t t' => NeverClash t.2.body t'.2.body) (exampleFile exampleLoop).templates
        archive'.templates := by
  refine ⟨_, rfl, applySyntacticSugar_neverClash rfl ?_⟩
  intro t ht
  rcases List.mem_cons.mp ht with rfl | ht
  · exact List.nodup_nil
  · rw [List.mem_singleton.mp ht]
    have hstarts : nodeStarts exampleLoop = [68, 86] := rfl
    show (nodeStarts exampleLoop).Nodup
    rw [hstarts]
    decide

/-! ## Clashes -/

/-- The token `IDENTIFIER` of the grammar: `[$_]*[a-zA-Z][a-zA-Z$_0-9]*`. -/
def isIdentifier (name : String) : Bool :=
  match name.toList.dropWhile fun c => c == '$' || c == '_' with
  | [] => false
  | c :: cs => c.isAlpha && cs.all fun c => c.isAlphanum || c == '$' || c == '_'

section Clashes

variable {field : ℤ} {σ : Store}

theorem exec_innerBlock (info : Meta) {inner : List Statement} {σ' : Store} {trace trace' : List Event}
    {out : Option Store} (hnames : declaredNames inner = []) (h : Exec field inner σ trace (some σ'))
    (h' : Exec field stmts σ' trace' out) : Exec field (.block info inner :: stmts) σ (trace ++ trace') out := by
  refine .block h ?_
  have hscope : leaveScope (declaredNames inner) σ σ' = σ' := by
    funext name
    rw [hnames]
    exact if_neg List.not_mem_nil
  rw [hscope]
  exact h'

/-- The loop that the removal makes of `while (1) { x <== A()(); }`. -/
def endlessLoop (i₁ i₂ i₃ i₄ i₅ : Meta) (n k x : String) (call output : Expression) : Statement :=
  .whileStmt i₁ (.number i₂ 1) (.block i₁ [
    .block i₃ [.block i₄ [
      .block i₅ [.substitution i₅ n (counterAccess i₁ k) .assignVar call],
      .substitution i₄ x [] .assignConstraintSignal output]],
    .substitution i₁ k [] .assignVar (.infixOp i₁ (.var i₁ k []) .add (.number i₁ 1))])

/-- It can be run any number of times, and the counter is counted modulo the field. -/
theorem exec_endlessLoop (hpos : 0 < field) (htrue : asBool (modulus 1 field) field = true)
    (i₁ i₂ i₃ i₄ i₅ : Meta) {n k x : String} (call : Expression) {output : Expression} (hnk : k ≠ n) (hxk : k ≠ x) (hxn : x ≠ n)
    (houtput : output.isArithmetic = false) (times : ℕ) :
    ∀ (σ : Store) (a : ℕ), σ k = modulus (a : ℤ) field →
      ∃ trace, Exec field [endlessLoop i₁ i₂ i₃ i₄ i₅ n k x call output] σ trace none ∧
        instances [n] trace = (List.range times).map
          fun j => (n, [modulus ((a + j : ℕ) : ℤ) field]) := by
  induction times with
  | zero => exact fun _ _ _ => ⟨[], .stop, rfl⟩
  | succ times ih =>
    intro σ a hσ
    -- one iteration creates the component with the index `a`
    have hcreation : Exec field [.substitution i₅ n (counterAccess i₁ k) .assignVar call] σ
        [⟨n, [σ k], .assignVar⟩] (some (Function.update σ n 0)) :=
      .substitution (.cons .var .nil) (fun h => by cases h) .done
    have hassign : Exec field [.substitution i₄ x [] .assignConstraintSignal output]
        (Function.update σ n 0) [⟨x, [], .assignConstraintSignal⟩]
        (some (Function.update (Function.update σ n 0) x 0)) :=
      .substitution .nil (fun _ => .other houtput) .done
    have hcounter : Function.update (Function.update σ n 0) x 0 k = modulus (a : ℤ) field := by
      rw [Function.update_of_ne hxk, Function.update_of_ne hnk, hσ]
    have hsum : ExpressionInfixOpcode.value .add (modulus (a : ℤ) field) (modulus 1 field) field =
        some (modulus ((a + 1 : ℕ) : ℤ) field) := by
      show some _ = some _
      rw [Algebra.ModularArithmetic.add, modulus_eq_emod hpos, modulus_eq_emod hpos,
        modulus_eq_emod hpos, modulus_eq_emod hpos, ← Int.add_emod, Nat.cast_add, Nat.cast_one]
    have hincrement : Exec field [.substitution i₁ k [] .assignVar
        (.infixOp i₁ (.var i₁ k []) .add (.number i₁ 1))]
        (Function.update (Function.update σ n 0) x 0) [⟨k, [], .assignVar⟩]
        (some (Function.update (Function.update (Function.update σ n 0) x 0) k
          (modulus ((a + 1 : ℕ) : ℤ) field))) :=
      .substitution .nil (fun _ => .infixOp (hcounter ▸ .var) .number hsum) .done
    obtain ⟨trace, hrun, hinstances⟩ := ih _ (a + 1)
      (Function.update_self k (modulus ((a + 1 : ℕ) : ℤ) field)
        (Function.update (Function.update σ n 0) x 0))
    have hbody := exec_innerBlock i₃ rfl (exec_innerBlock i₄ rfl (exec_innerBlock i₅ rfl hcreation
      hassign) .done) hincrement
    refine ⟨_, .whileTrue .number htrue (exec_innerBlock i₁ rfl hbody hrun), ?_⟩
    have hother : ∀ {var : String} {op : AssignOp}, var ≠ n →
        isCreationOf [n] ⟨var, [], op⟩ = false :=
      fun hne => decide_eq_false fun h => hne (List.mem_singleton.mp h.1)
    have hthis : isCreationOf [n] ⟨n, [σ k], .assignVar⟩ = true :=
      decide_eq_true ⟨List.mem_cons_self, rfl⟩
    rw [instances] at hinstances ⊢
    rw [List.filter_append, List.map_append, hinstances, List.range_succ_eq_map, List.map_cons, List.map_map]
    simp only [hσ, Nat.add_zero, List.cons_append, List.nil_append, List.append_nil, List.filter_cons, hσ ▸ hthis,
      hother hxn, hother hnk, if_true, Bool.false_eq_true, if_false, List.filter_nil, List.map_cons,
      List.map_nil]
    refine congrArg _ (List.map_congr_left fun j _ => ?_)
    rw [Nat.add_assoc, Nat.add_comm 1]
    rfl

theorem exec_endlessLoop_clashes (hpos : 0 < field) (htrue : asBool (modulus 1 field) field = true)
    (i₁ i₂ i₃ i₄ i₅ : Meta) {n k x : String} (call : Expression) {output : Expression} (hnk : k ≠ n) (hxk : k ≠ x)
    (hxn : x ≠ n) (houtput : output.isArithmetic = false) (σ : Store) (hσ : σ k = modulus 0 field) :
    ∃ trace, Exec field [endlessLoop i₁ i₂ i₃ i₄ i₅ n k x call output] σ trace none ∧
      ¬ (instances [n] trace).Nodup := by
  obtain ⟨trace, hrun, hinstances⟩ := exec_endlessLoop hpos htrue i₁ i₂ i₃ i₄ i₅ call hnk hxk hxn houtput
    (field.toNat + 1) σ 0 hσ
  refine ⟨trace, hrun, fun hnodup => ?_⟩
  rw [hinstances] at hnodup
  have hinj := List.inj_on_of_nodup_map hnodup
  have hwrap : modulus ((0 + field.toNat : ℕ) : ℤ) field = modulus ((0 + 0 : ℕ) : ℤ) field := by
    rw [Nat.zero_add, Int.toNat_of_nonneg hpos.le, modulus_eq_emod hpos, modulus_eq_emod hpos,
      Int.emod_self]
    rfl
  have heq : field.toNat = 0 := hinj (List.mem_range.mpr (Nat.lt_succ_self _))
    (List.mem_range.mpr (Nat.succ_pos _)) (by rw [hwrap])
  omega

end Clashes

/-- `{ signal output A_2_91; A_2_91 <== A()(); }` -/
def exampleClash : Statement :=
  .block ⟨6, 56, some 0⟩ [
    .initializationBlock ⟨7, 58, some 0⟩ (.signal .output [])
      [.declaration ⟨8, 58, some 0⟩ (.signal .output []) "A_2_91" [] true false],
    .substitution ⟨12, 80, some 0⟩ "A_2_91" [] .assignConstraintSignal (exampleCall 91 [])]

/-- A generated name can be one that the template declares, and a loop that goes on for as long as the
field is large comes back to its first component. -/
theorem applySyntacticSugar_clash :
    (∃ archive', applySyntacticSugar (exampleFile exampleClash) = .ok archive' ∧
      ∃ t' ∈ archive'.templates, "A_2_91" ∈ anonymousComponents t'.2.body ∧
        isIdentifier "A_2_91" = true ∧ "A_2_91" ∈ declaredNames exampleClash.children) ∧
    ∃ archive', applySyntacticSugar (exampleFile exampleLoop) = .ok archive' ∧
      ∃ t' ∈ archive'.templates, ∃ σ trace out, Exec 18446744069414584321 [t'.2.body] σ trace out ∧
        ¬ (instances (anonymousComponents t'.2.body) trace).Nodup := by
  constructor
  · refine ⟨_, rfl, _, List.mem_cons_of_mem _ List.mem_cons_self, ?_, ?_, ?_⟩
    · exact List.mem_cons_self
    · decide
    · exact List.mem_cons_self
  · have hwhile : ∃ trace, Exec 18446744069414584321 [endlessLoop ⟨9, 68, some 0⟩ ⟨10, 75, some 0⟩
        ⟨11, 78, some 0⟩ ⟨12, 80, some 0⟩ ⟨86, 86, some 0⟩ "A_2_86" "anon_var_2_68" "x"
        (.call ⟨86, 86, some 0⟩ "A" []) (.var ⟨86, 86, some 0⟩ "A_2_86"
          (counterAccess ⟨9, 68, some 0⟩ "anon_var_2_68" ++ [.componentAccess "o"]))]
        (fun _ => 0) trace none ∧ ¬ (instances ["A_2_86"] trace).Nodup :=
      exec_endlessLoop_clashes (by decide) (by decide) _ _ _ _ _ _ (by decide) (by decide)
        (by decide) rfl _ rfl
    obtain ⟨trace, hrun, hclash⟩ := hwhile
    have hzero : ∀ name, Function.update (fun _ : String => (0 : ℤ)) name 0 = fun _ => 0 :=
      fun name => Function.update_eq_self name _
    refine ⟨_, rfl, _, List.mem_cons_of_mem _ List.mem_cons_self, fun _ => 0,
      ⟨"anon_var_2_68", [], .assignVar⟩ :: trace, none, ?_, ?_⟩
    · refine .blockStop (.initializationBlock (.declaration 0 (.initializationBlock
        (.declaration 0 (.substitution .nil (fun _ => .number) (.initializationBlock
          (.declaration 0 ?_)))))))
      have hmod : modulus 0 18446744069414584321 = 0 := rfl
      rw [hmod, hzero, hzero, hzero, hzero]
      exact hrun
    · exact hclash

end Circom.Parser
