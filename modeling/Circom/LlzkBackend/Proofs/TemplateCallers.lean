import Circom.LlzkBackend.Proofs.TemplateTermination
import Mathlib.Logic.Relation

/-!
# The callers of a template

`callers_of` follows the calls that a substitution assigns, possibly under `parallel`, from the target to their
callers. A call in a branch of an inline switch is not among them.
-/

namespace Circom.LlzkBackend

open Circom.Ast
open Circom.Lib (HashMap)
open Relation (ReflTransGen)

/-! ## Calls in a body -/

/-- The expression is a call of a template, possibly in parallel. -/
inductive Constructs : Expression → String → Prop
  | call (info : Meta) (id : String) (args : List Expression) : Constructs (.call info id args) id
  | parallelOp (info : Meta) {rhe : Expression} {id : String} : Constructs rhe id → Constructs (.parallelOp info rhe) id

/-- An expression whose type is a template can also choose between two calls. -/
inductive MayConstruct : Expression → String → Prop
  | call (info : Meta) (id : String) (args : List Expression) : MayConstruct (.call info id args) id
  | parallelOp (info : Meta) {rhe : Expression} {id : String} :
    MayConstruct rhe id → MayConstruct (.parallelOp info rhe) id
  | ifTrue (info : Meta) (cond ifFalse : Expression) {ifTrue : Expression} {id : String} :
    MayConstruct ifTrue id → MayConstruct (.inlineSwitchOp info cond ifTrue ifFalse) id
  | ifFalse (info : Meta) (cond ifTrue : Expression) {ifFalse : Expression} {id : String} :
    MayConstruct ifFalse id → MayConstruct (.inlineSwitchOp info cond ifTrue ifFalse) id

/-- Somewhere in the statement an expression is assigned that calls a template, where `R` says which one. -/
inductive InBody (R : Expression → String → Prop) : Statement → String → Prop
  | substitution (info : Meta) (var : String) (access : List Access) (op : AssignOp) {rhe : Expression} {id : String} :
    R rhe id → InBody R (.substitution info var access op rhe) id
  | block (info : Meta) {stmts : List Statement} {stmt : Statement} {id : String} : stmt ∈ stmts → InBody R stmt id →
    InBody R (.block info stmts) id
  | initializationBlock (info : Meta) (xtype : VariableType) {stmts : List Statement} {stmt : Statement} {id : String} :
    stmt ∈ stmts → InBody R stmt id → InBody R (.initializationBlock info xtype stmts) id
  | ifCase (info : Meta) (cond : Expression) {ifCase : Statement} (elseCase : Option Statement) {id : String} :
    InBody R ifCase id → InBody R (.ifThenElse info cond ifCase elseCase) id
  | elseCase (info : Meta) (cond : Expression) (ifCase : Statement) {elseCase : Statement} {id : String} :
    InBody R elseCase id → InBody R (.ifThenElse info cond ifCase (some elseCase)) id
  | whileStmt (info : Meta) (cond : Expression) {stmt : Statement} {id : String} : InBody R stmt id →
    InBody R (.whileStmt info cond stmt) id

/-- The body of the template `caller` calls the template `callee`. -/
def Calls (R : Expression → String → Prop) (templates : HashMap String TemplateData) (caller callee : String) : Prop :=
  callee ∈ templates ∧ ∃ template, templates.lookup caller = some template ∧ InBody R template.body callee

theorem constructedTemplate_eq_some {expr : Expression} {id : String} :
    constructedTemplate expr = some id ↔ Constructs expr id := by
  constructor
  · intro h
    fun_induction constructedTemplate expr with
    | case1 info rhe ih => exact .parallelOp info (ih h)
    | case2 info id' args =>
      obtain rfl := Option.some.inj h
      exact .call info _ args
    | case3 => cases h
  · intro h
    induction h with
    | call => rfl
    | parallelOp info _ ih => exact ih

section

variable (templates : HashMap String TemplateData)

mutual

theorem mem_collectCalls {id : String} : ∀ stmt,
    id ∈ collectCalls templates stmt ↔ id ∈ templates ∧ InBody Constructs stmt id
  | .block info stmts => by
    rw [collectCalls, mem_collectAllCalls stmts]
    refine and_congr_right fun _ => ⟨fun ⟨stmt, hmem, h⟩ => .block info hmem h, fun h => ?_⟩
    cases h with
    | block _ hmem h => exact ⟨_, hmem, h⟩
  | .initializationBlock info xtype stmts => by
    rw [collectCalls, mem_collectAllCalls stmts]
    refine and_congr_right fun _ => ⟨fun ⟨stmt, hmem, h⟩ => .initializationBlock info xtype hmem h, fun h => ?_⟩
    cases h with
    | initializationBlock _ _ hmem h => exact ⟨_, hmem, h⟩
  | .ifThenElse info cond ifCase none => by
    rw [collectCalls, mem_collectCalls ifCase]
    refine and_congr_right fun _ => ⟨.ifCase info cond none, fun h => ?_⟩
    cases h with
    | ifCase _ _ _ h => exact h
  | .ifThenElse info cond ifCase (some elseCase) => by
    rw [collectCalls, Finset.mem_union, mem_collectCalls ifCase, mem_collectCalls elseCase, ← and_or_left]
    refine and_congr_right fun _ => ⟨?_, fun h => ?_⟩
    · rintro (h | h)
      · exact .ifCase info cond (some elseCase) h
      · exact .elseCase info cond ifCase h
    · cases h with
      | ifCase _ _ _ h => exact Or.inl h
      | elseCase _ _ _ h => exact Or.inr h
  | .whileStmt info cond stmt => by
    rw [collectCalls, mem_collectCalls stmt]
    refine and_congr_right fun _ => ⟨.whileStmt info cond, fun h => ?_⟩
    cases h with
    | whileStmt _ _ h => exact h
  | .substitution info var access op rhe => by
    have hbody : InBody Constructs (.substitution info var access op rhe) id ↔ constructedTemplate rhe = some id := by
      rw [constructedTemplate_eq_some]
      refine ⟨fun h => ?_, .substitution info var access op⟩
      cases h with
      | substitution _ _ _ _ h => exact h
    rw [collectCalls, hbody]
    cases hrhe : constructedTemplate rhe with
    | none => simp
    | some id' =>
      by_cases hid' : id' ∈ templates
      · simp only [if_pos hid', Finset.mem_singleton, Option.some.injEq]
        exact ⟨fun h => ⟨h ▸ hid', h.symm⟩, fun h => h.2.symm⟩
      · simp only [if_neg hid', Finset.notMem_empty, Option.some.injEq, false_iff, not_and]
        rintro hid rfl
        exact hid' hid
  | .returnStmt .. => by simp [collectCalls]; exact fun _ => nofun
  | .declaration .. => by simp [collectCalls]; exact fun _ => nofun
  | .multSubstitution .. => by simp [collectCalls]; exact fun _ => nofun
  | .underscoreSubstitution .. => by simp [collectCalls]; exact fun _ => nofun
  | .constraintEquality .. => by simp [collectCalls]; exact fun _ => nofun
  | .logCall .. => by simp [collectCalls]; exact fun _ => nofun
  | .assert .. => by simp [collectCalls]; exact fun _ => nofun

theorem mem_collectAllCalls {id : String} : ∀ stmts,
    id ∈ collectAllCalls templates stmts ↔ id ∈ templates ∧ ∃ stmt ∈ stmts, InBody Constructs stmt id
  | [] => by simp [collectAllCalls]
  | stmt :: stmts => by
    rw [collectAllCalls, Finset.mem_union, mem_collectCalls stmt, mem_collectAllCalls stmts, ← and_or_left,
      List.exists_mem_cons_iff]

end

theorem mem_callers {caller callee : String} :
    caller ∈ callers templates callee ↔ Calls Constructs templates caller callee := by
  unfold callers Calls callGraph
  rw [List.mem_filterMap, AList.pairs_mapValues]
  constructor
  · rintro ⟨e, he, hcaller⟩
    obtain ⟨⟨name, template⟩, hmem, rfl⟩ := List.mem_map.mp he
    split_ifs at hcaller with hcallee
    obtain rfl := Option.some.inj hcaller
    obtain ⟨htemplate, hbody⟩ := (mem_collectCalls templates template.body).mp hcallee
    exact ⟨htemplate, template, AList.mem_pairs_iff_lookup.mp hmem, hbody⟩
  · rintro ⟨hcallee, template, hlookup, hbody⟩
    have hcollected := (mem_collectCalls templates template.body).mpr ⟨hcallee, hbody⟩
    exact ⟨(caller, collectCalls templates template.body),
      List.mem_map.mpr ⟨(caller, template), AList.mem_pairs_iff_lookup.mpr hlookup, rfl⟩, if_pos hcollected⟩

/-! ## The worklist -/

/-- The result of the worklist has what is pending and what calls a member, and every member comes from there. -/
theorem closeUnderCallers_spec {fuel : ℕ} {result : Finset String} {pending : List String} {closed : Finset String}
    (h : closeUnderCallers templates fuel result pending = some closed)
    (hclosed : ∀ callee ∈ result, ∀ caller ∈ callers templates callee, caller ∈ result ∨ caller ∈ pending) :
    (∀ callee ∈ closed, ∀ caller ∈ callers templates callee, caller ∈ closed) ∧
      ∀ name ∈ closed, name ∈ result ∨ ∃ other ∈ pending, ReflTransGen (Calls Constructs templates) name other := by
  induction fuel generalizing result pending with
  | zero =>
    cases pending with
    | nil =>
      obtain rfl := Option.some.inj h
      exact ⟨fun callee hcallee caller hcaller => (hclosed callee hcallee caller hcaller).resolve_right List.not_mem_nil,
        fun name hname => Or.inl hname⟩
    | cons => cases h
  | succ fuel ih =>
    cases pending with
    | nil =>
      obtain rfl := Option.some.inj h
      exact ⟨fun callee hcallee caller hcaller => (hclosed callee hcallee caller hcaller).resolve_right List.not_mem_nil,
        fun name hname => Or.inl hname⟩
    | cons template pending =>
      rw [closeUnderCallers] at h
      by_cases hmem : template ∈ result
      · rw [if_pos hmem] at h
        obtain ⟨hall, hfrom⟩ := ih h fun callee hcallee caller hcaller => by
          rcases hclosed callee hcallee caller hcaller with hcaller | hcaller
          · exact Or.inl hcaller
          · rcases List.mem_cons.mp hcaller with rfl | hcaller
            · exact Or.inl hmem
            · exact Or.inr hcaller
        refine ⟨hall, fun name hname => (hfrom name hname).imp_right ?_⟩
        rintro ⟨other, hother, hreach⟩
        exact ⟨other, List.mem_cons_of_mem _ hother, hreach⟩
      · rw [if_neg hmem] at h
        obtain ⟨hall, hfrom⟩ := ih h fun callee hcallee caller hcaller => by
          rw [List.mem_append, List.mem_reverse]
          rcases Finset.mem_insert.mp hcallee with rfl | hcallee
          · exact Or.inr (Or.inl hcaller)
          · rcases hclosed callee hcallee caller hcaller with hcaller | hcaller
            · exact Or.inl (Finset.mem_insert_of_mem hcaller)
            · rcases List.mem_cons.mp hcaller with rfl | hcaller
              · exact Or.inl (Finset.mem_insert_self _ _)
              · exact Or.inr (Or.inr hcaller)
        refine ⟨hall, fun name hname => ?_⟩
        rcases hfrom name hname with hname | ⟨other, hother, hreach⟩
        · rcases Finset.mem_insert.mp hname with rfl | hname
          · exact Or.inr ⟨name, List.mem_cons_self, .refl⟩
          · exact Or.inl hname
        · rcases List.mem_append.mp hother with hother | hother
          · exact Or.inr ⟨template, List.mem_cons_self,
              hreach.tail ((mem_callers templates).mp (List.mem_reverse.mp hother))⟩
          · exact Or.inr ⟨other, List.mem_cons_of_mem _ hother, hreach⟩

/-- The worklist ends for every target. -/
theorem exists_callersOf {fuel : ℕ} (hfuel : callersFuel templates ≤ fuel) (target : String) :
    ∃ closed, callersOf templates fuel target = some closed ∧ target ∈ closed := by
  by_cases htarget : target ∈ templates
  · obtain ⟨closed, hclosed, hmem, -⟩ := callersOf_ends templates hfuel htarget
    exact ⟨closed, hclosed, hmem⟩
  · -- nothing calls a name that is no template
    have hnone : callers templates target = [] :=
      List.eq_nil_iff_forall_not_mem.mpr fun caller hcaller => htarget ((mem_callers templates).mp hcaller).1
    obtain ⟨fuel, rfl⟩ : ∃ n, fuel = n + 1 := ⟨fuel - 1, by unfold callersFuel at hfuel; omega⟩
    refine ⟨insert target ∅, ?_, Finset.mem_insert_self _ _⟩
    rw [callersOf, closeUnderCallers, if_neg (Finset.notMem_empty _), hnone]
    cases fuel <;> rfl

/-- The callers of a template are the templates from which a chain of constructor calls leads to it. So whatever
calls one of them is one of them. -/
theorem callersOf_iff (target : String) : ∃ bound, ∀ fuel ≥ bound, ∃ closed,
    callersOf templates fuel target = some closed ∧
      (∀ name, name ∈ closed ↔ ReflTransGen (Calls Constructs templates) name target) ∧
      ∀ callee ∈ closed, ∀ caller, Calls Constructs templates caller callee → caller ∈ closed := by
  refine ⟨callersFuel templates, fun fuel hfuel => ?_⟩
  obtain ⟨closed, hclosed, htarget⟩ := exists_callersOf templates hfuel target
  obtain ⟨hall, hfrom⟩ := closeUnderCallers_spec templates hclosed fun _ h => absurd h (Finset.notMem_empty _)
  have hcallers : ∀ callee ∈ closed, ∀ caller, Calls Constructs templates caller callee → caller ∈ closed :=
    fun callee hcallee caller hcaller => hall callee hcallee caller ((mem_callers templates).mpr hcaller)
  refine ⟨closed, hclosed, fun name => ⟨fun hname => ?_, fun hreach => ?_⟩, hcallers⟩
  · rcases hfrom name hname with hname | ⟨other, hother, hreach⟩
    · exact absurd hname (Finset.notMem_empty _)
    · rwa [List.mem_singleton.mp hother] at hreach
  · induction hreach using ReflTransGen.head_induction_on with
    | refl => exact htarget
    | head hcall _ ih => exact hcallers _ ih _ hcall

end

/-- A component that is one of two instances of a template. -/
def switchingStatement : Statement :=
  .block ⟨0, 0, none⟩
    [.declaration ⟨0, 0, none⟩ .component "c" [] false false,
      .substitution ⟨0, 0, none⟩ "c" [] .assignVar
        (.inlineSwitchOp ⟨0, 0, none⟩ (.var ⟨0, 0, none⟩ "n" []) (.call ⟨0, 0, none⟩ "R" [.number ⟨0, 0, none⟩ 1])
          (.call ⟨0, 0, none⟩ "R" [.number ⟨0, 0, none⟩ 0]))]

def switchingTemplates : HashMap String TemplateData :=
  AList.ofPairs [("P", ⟨"P", 0, switchingStatement, ["n"], false, false, false⟩),
    ("R", ⟨"R", 0, .block ⟨0, 0, none⟩ [], ["n"], false, false, false⟩)]

/-- The branches of an inline switch are not searched. -/
theorem not_callersOf_mayConstruct : ¬ ∀ (templates : HashMap String TemplateData) target,
    ∃ bound, ∀ fuel ≥ bound, ∃ closed, callersOf templates fuel target = some closed ∧
      ∀ name, name ∈ closed ↔ ReflTransGen (Calls MayConstruct templates) name target := by
  intro h
  obtain ⟨bound, h⟩ := h switchingTemplates "R"
  obtain ⟨closed, hclosed, hiff⟩ := h bound le_rfl
  have hcalls : Calls MayConstruct switchingTemplates "P" "R" :=
    ⟨by decide, _, rfl, .block _ (List.mem_cons_of_mem _ List.mem_cons_self)
      (.substitution _ _ _ _ (.ifTrue _ _ _ (.call _ _ _)))⟩
  have hmem : "P" ∈ closed := (hiff "P").mpr (.single hcalls)
  obtain ⟨-, hfrom⟩ := closeUnderCallers_spec switchingTemplates hclosed fun _ h => absurd h (Finset.notMem_empty _)
  rcases hfrom "P" hmem with hempty | ⟨other, hother, hreach⟩
  · exact absurd hempty (Finset.notMem_empty _)
  · rw [List.mem_singleton.mp hother] at hreach
    rcases hreach.cases_head with heq | ⟨callee, ⟨-, template, hlookup, hbody⟩, -⟩
    · exact absurd heq (by decide)
    · obtain rfl := Option.some.inj (hlookup.symm.trans (show switchingTemplates.lookup "P" =
        some ⟨"P", 0, switchingStatement, ["n"], false, false, false⟩ from rfl))
      cases hbody with
      | block _ hstmt hbody =>
        rcases List.mem_pair.mp hstmt with rfl | rfl
        · cases hbody
        · cases hbody with
          | substitution _ _ _ _ hconstructs => cases hconstructs

end Circom.LlzkBackend
