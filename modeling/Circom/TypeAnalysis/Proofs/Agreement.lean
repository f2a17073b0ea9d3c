import Circom.Ast.Proofs.Occurrences
import Circom.TypeAnalysis.Proofs.Rounds

/-!
# Agreement on what is known

Two runs agree on an environment when the tags of the signals are the same and so are the variables that it
tags known. Expressions that are taken for known then have the same value in both.
-/

set_option linter.unusedSectionVars false

namespace Circom.TypeAnalysis

open Circom.Ast
open Circom.Lib (HashMap Scopes Occurs)
open Circom.Lib.Scopes
open Circom.ProgramStructure
open Circom.ProgramStructure.Variables

variable {V : Type} [DecidableEq V] {reducesTo : Meta → TypeReduction} {ops : Operators V}
  {signals₁ signals₂ : Wires V} {environment environment' : Environment} {s₁ s₂ s₁' s₂' : RunState V}

/-- Two states that an observer who sees what the environment tags known does not tell apart. -/
structure Agree (environment : Environment) (s₁ s₂ : RunState V) : Prop where
  nonempty : environment.vars ≠ []
  tags : s₁.tags = s₂.tags
  keys₁ : SameKeys environment.vars s₁.vars
  keys₂ : SameKeys environment.vars s₂.vars
  known : ∀ i name, KnownAt environment.vars i name → entry s₁.vars i name = entry s₂.vars i name
  components : ComponentsUnknown environment.components

theorem Agree.ne_nil (h : Agree environment s₁ s₂) : s₁.vars ≠ [] ∧ s₂.vars ≠ [] := by
  have hlength := List.length_pos_iff.mpr h.nonempty
  refine ⟨List.length_pos_iff.mp ?_, List.length_pos_iff.mp ?_⟩
  · rw [← h.keys₁.1]
    exact hlength
  · rw [← h.keys₂.1]
    exact hlength

/-- Agreement on more is agreement on less. -/
theorem Agree.weaken (h : Agree environment s₁ s₂) (hweaker : Weaker environment.vars environment'.vars)
    (hcomponents : ComponentsUnknown environment'.components) : Agree environment' s₁ s₂ where
  nonempty := Grows.ne_nil hweaker h.nonempty
  tags := h.tags
  keys₁ := hweaker.sameKeys.symm.trans h.keys₁
  keys₂ := hweaker.sameKeys.symm.trans h.keys₂
  known i name hknown := h.known i name (hweaker.known hknown)
  components := hcomponents

/-- A variable that is tagged known has the same value in both runs. -/
theorem Agree.getVariable (h : Agree environment s₁ s₂) {name : String}
    (hknown : Tagged environment name .known) : s₁.vars.getVariable name = s₂.vars.getVariable name := by
  obtain ⟨isArray, hget⟩ := hknown
  obtain ⟨i, hi, hentry⟩ := getVariable_eq_some.mp hget
  rw [getVariable_eq_entry (h.keys₁.innermost.mp hi), getVariable_eq_entry (h.keys₂.innermost.mp hi)]
  exact h.known i name ⟨isArray, hentry⟩

/-! ## Expressions -/

theorem Reads.child {e c : Expression} (h : Reads reducesTo environment e) (hc : c ∈ e.children) :
    Reads reducesTo environment c := fun info name access hoccurs => h info name access (hoccurs.of_mem hc)

theorem expressionIterator_eq_known {es : List Expression} :
    expressionIterator reducesTo environment es = some .known ↔
      ∀ e ∈ es, tag reducesTo environment e = some .known := by
  induction es with
  | nil => simp [expressionIterator]
  | cons e es ih =>
    rw [List.forall_mem_cons, ← ih, expressionIterator]
    cases tag reducesTo environment e with
    | none => simp
    | some t => cases t <;> simp

theorem accessTag_eq_known {access : List Access} :
    accessTag reducesTo environment access = some .known ↔
      ∀ e ∈ access.filterMap Access.index?, tag reducesTo environment e = some .known := by
  induction access with
  | nil => simp [accessTag]
  | cons a access ih =>
    cases a with
    | componentAccess name =>
      rw [accessTag, ih, List.filterMap_cons_none (by rfl)]
    | arrayAccess index =>
      rw [List.filterMap_cons_some (b := index) (by rfl), List.forall_mem_cons, ← ih, accessTag]
      cases tag reducesTo environment index with
      | none => simp
      | some t => cases t <;> simp

theorem evalAll_congr {es : List Expression}
    (h : ∀ e ∈ es, eval reducesTo ops signals₁ s₁ e = eval reducesTo ops signals₂ s₂ e) :
    evalAll reducesTo ops signals₁ s₁ es = evalAll reducesTo ops signals₂ s₂ es := by
  induction es with
  | nil => rfl
  | cons e es ih =>
    rw [List.forall_mem_cons] at h
    rw [evalAll, evalAll, h.1, ih h.2]

theorem evalAccess_congr {access : List Access}
    (h : ∀ e ∈ access.filterMap Access.index?,
      eval reducesTo ops signals₁ s₁ e = eval reducesTo ops signals₂ s₂ e) :
    evalAccess reducesTo ops signals₁ s₁ access = evalAccess reducesTo ops signals₂ s₂ access := by
  induction access with
  | nil => rfl
  | cons a access ih =>
    cases a with
    | componentAccess name =>
      rw [List.filterMap_cons_none (by rfl)] at h
      rw [evalAccess, evalAccess, ih h]
    | arrayAccess index =>
      rw [List.filterMap_cons_some (b := index) (by rfl), List.forall_mem_cons] at h
      rw [evalAccess, evalAccess, h.1, ih h.2]

/-- The value of an expression that is taken for known. -/
theorem Agree.eval (h : Agree environment s₁ s₂) (e : Expression) :
    Reads reducesTo environment e → tag reducesTo environment e = some .known →
    eval reducesTo ops signals₁ s₁ e = eval reducesTo ops signals₂ s₂ e := by
  induction e using Expression.children_induction with
  | step e ih =>
    intro hreads htag
    have hchild : ∀ c ∈ e.children, tag reducesTo environment c = some .known →
        TypeAnalysis.eval reducesTo ops signals₁ s₁ c = TypeAnalysis.eval reducesTo ops signals₂ s₂ c :=
      fun c hc => ih c hc (hreads.child hc)
    cases e with
    | number info value => rfl
    | var info name access =>
      obtain ⟨hvar, htagRead⟩ := hreads info name access (Occurs.refl _)
      rw [TypeAnalysis.eval, TypeAnalysis.eval]
      rw [tag] at htag
      cases hreduces : reducesTo info with
      | var =>
        simp only [hreduces, Option.bind_eq_bind, Option.bind_eq_some_iff, Prod.exists,
          Option.some.injEq] at htag
        obtain ⟨t, isArray, hget, ht⟩ := htag
        have hknown : t = .known := by
          cases isArray with
          | true => exact hvar hreduces t hget
          | false => exact ht
        subst hknown
        cases access with
        | nil =>
          have hvalue := h.getVariable ⟨isArray, hget⟩
          simp only [evalAccess, List.isEmpty_nil, if_true, Option.bind_eq_bind, Option.bind_some, hvalue]
        | cons a access =>
          simp only [List.isEmpty_cons, Bool.false_eq_true, if_false, Option.bind_eq_bind,
            Option.bind_fun_none]
      | tag =>
        have hindices := accessTag_eq_known.mp (htagRead hreduces)
        have haccess : evalAccess reducesTo ops signals₁ s₁ access =
            evalAccess reducesTo ops signals₂ s₂ access :=
          evalAccess_congr fun e he => hchild e he (hindices e he)
        simp only [haccess, h.tags]
      | component t =>
        simp only [hreduces] at htag
        exact absurd (h.components name .known htag) (by simp)
      | signal => simp [hreduces] at htag
      | bus b => simp [hreduces] at htag
    | infixOp info lhe op rhe =>
      simp only [tag, Option.bind_eq_bind, Option.bind_eq_some_iff, Option.some.injEq, max_eq_known] at htag
      obtain ⟨l, hl, r, hr, rfl, rfl⟩ := htag
      rw [TypeAnalysis.eval, TypeAnalysis.eval, hchild lhe (by simp [Expression.children]) hl,
        hchild rhe (by simp [Expression.children]) hr]
    | prefixOp info op rhe =>
      rw [TypeAnalysis.eval, TypeAnalysis.eval, hchild rhe (by simp [Expression.children]) htag]
    | inlineSwitchOp info cond ifTrue ifFalse =>
      simp only [tag, Option.bind_eq_bind, Option.bind_eq_some_iff, Option.some.injEq, max_eq_known] at htag
      obtain ⟨c, hc, t, ht, f, hf, rfl, rfl, rfl⟩ := htag
      rw [TypeAnalysis.eval, TypeAnalysis.eval, hchild cond (by simp [Expression.children]) hc,
        hchild ifTrue (by simp [Expression.children]) ht,
        hchild ifFalse (by simp [Expression.children]) hf]
    | parallelOp info rhe =>
      rw [TypeAnalysis.eval, TypeAnalysis.eval, hchild rhe (by simp [Expression.children]) htag]
    | call info id args =>
      have hargs := expressionIterator_eq_known.mp htag
      have hvalues : evalAll reducesTo ops signals₁ s₁ args = evalAll reducesTo ops signals₂ s₂ args :=
        evalAll_congr fun e he => hchild e he (hargs e he)
      rw [TypeAnalysis.eval, TypeAnalysis.eval, hvalues]
    | busCall info id args =>
      have hargs := expressionIterator_eq_known.mp htag
      have hvalues : evalAll reducesTo ops signals₁ s₁ args = evalAll reducesTo ops signals₂ s₂ args :=
        evalAll_congr fun e he => hchild e he (hargs e he)
      rw [TypeAnalysis.eval, TypeAnalysis.eval, hvalues]
    | anonymousComp => simp [tag] at htag
    | arrayInLine info values =>
      have htags := expressionIterator_eq_known.mp htag
      have hvalues : evalAll reducesTo ops signals₁ s₁ values = evalAll reducesTo ops signals₂ s₂ values :=
        evalAll_congr fun e he => hchild e he (htags e he)
      rw [TypeAnalysis.eval, TypeAnalysis.eval, hvalues]
    | tuple => simp [tag] at htag
    | uniformArray info value dimension =>
      simp only [tag, Option.bind_eq_bind, Option.bind_eq_some_iff, Option.some.injEq, max_eq_known] at htag
      obtain ⟨v, hv, d, hd, rfl, rfl⟩ := htag
      rw [TypeAnalysis.eval, TypeAnalysis.eval, hchild value (by simp [Expression.children]) hv,
        hchild dimension (by simp [Expression.children]) hd]

theorem unknownIndex_pair {first second : Option Bool}
    (h : (first.bind fun unknown => if unknown = true then some true else second) = some false) :
    first = some false ∧ second = some false := by
  rw [Option.bind_eq_some_iff] at h
  obtain ⟨unknown, hfirst, h⟩ := h
  cases unknown with
  | true => simp at h
  | false => exact ⟨hfirst, h⟩

mutual

/-- The indices in an expression without an unknown index. -/
theorem tag_indices : ∀ (e : Expression), unknownIndex reducesTo environment e = some false →
    ∀ index ∈ indices e, tag reducesTo environment index = some .known
  | .number .., _, index, hindex => by simp [indices] at hindex
  | .var _ _ access, h, index, hindex => by
    simp only [unknownIndex, Option.bind_eq_bind, Option.bind_eq_some_iff, Option.some.injEq,
      decide_eq_false_iff_not] at h
    obtain ⟨t, ht, hunknown⟩ := h
    cases t with
    | known => exact accessTag_eq_known.mp ht index hindex
    | unknown => simp at hunknown
  | .infixOp _ lhe _ rhe, h, index, hindex => by
    obtain ⟨hl, hr⟩ := unknownIndex_pair h
    rcases List.mem_append.mp hindex with hindex | hindex
    · exact tag_indices lhe hl index hindex
    · exact tag_indices rhe hr index hindex
  | .prefixOp _ _ rhe, h, index, hindex => tag_indices rhe h index hindex
  | .parallelOp _ rhe, h, index, hindex => tag_indices rhe h index hindex
  | .inlineSwitchOp _ cond ifTrue ifFalse, h, index, hindex => by
    obtain ⟨hc, h⟩ := unknownIndex_pair h
    obtain ⟨ht, hf⟩ := unknownIndex_pair h
    rcases List.mem_append.mp hindex with hindex | hindex
    · rcases List.mem_append.mp hindex with hindex | hindex
      · exact tag_indices cond hc index hindex
      · exact tag_indices ifTrue ht index hindex
    · exact tag_indices ifFalse hf index hindex
  | .call _ _ args, h, index, hindex => tag_indicesOfAll args h index hindex
  | .busCall _ _ args, h, index, hindex => tag_indicesOfAll args h index hindex
  | .arrayInLine _ values, h, index, hindex => tag_indicesOfAll values h index hindex
  | .tuple _ values, h, index, hindex => tag_indicesOfAll values h index hindex
  | .uniformArray _ value dimension, h, index, hindex => by
    obtain ⟨hv, hd⟩ := unknownIndex_pair h
    rcases List.mem_append.mp hindex with hindex | hindex
    · exact tag_indices value hv index hindex
    · exact tag_indices dimension hd index hindex
  | .anonymousComp .., _, index, hindex => by simp [indices] at hindex

theorem tag_indicesOfAll : ∀ (es : List Expression), anyUnknownIndex reducesTo environment es = some false →
    ∀ index ∈ indicesOfAll es, tag reducesTo environment index = some .known
  | [], _, index, hindex => by simp [indicesOfAll] at hindex
  | e :: es, h, index, hindex => by
    obtain ⟨he, hes⟩ := unknownIndex_pair h
    rcases List.mem_append.mp hindex with hindex | hindex
    · exact tag_indices e he index hindex
    · exact tag_indicesOfAll es hes index hindex

end

/-- An expression whose value the analysis relies on. -/
theorem Agree.eval_of_trusted (h : Agree environment s₁ s₂) {e : Expression}
    (htrusted : Trusted reducesTo environment e) (htag : tag reducesTo environment e = some .known) :
    TypeAnalysis.eval reducesTo ops signals₁ s₁ e = TypeAnalysis.eval reducesTo ops signals₂ s₂ e :=
  h.eval e (htrusted htag) htag

theorem Agree.indexValues (h : Agree environment s₁ s₂) {es : List Expression}
    (htrusted : ∀ e ∈ es, Trusted reducesTo environment e)
    (htag : ∀ e ∈ es, tag reducesTo environment e = some .known) :
    TypeAnalysis.indexValues reducesTo ops signals₁ s₁ es =
      TypeAnalysis.indexValues reducesTo ops signals₂ s₂ es :=
  List.map_congr_left fun e he => h.eval_of_trusted (htrusted e he) (htag e he)

end Circom.TypeAnalysis
