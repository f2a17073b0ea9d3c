import Circom.TypeAnalysis.TypeGivenFunction
import Mathlib.Data.Finset.Card
import Mathlib.Tactic.Common

/-!
# The search for a return dimension

The search ends, does not panic and returns no wrong dimension when the return expressions can be typed. It finds what
can be computed unless a function is called again whose exploration is finished.
-/

namespace Circom.TypeAnalysis.TypeGivenFunction

open Circom.Ast
open Circom.Lib (HashMap)

variable {types : Assignment} {functionInfo : HashMap String FunctionData}
variable {environment : Environment} {expr : Expression} {rs : List (Environment × Expression)}
variable {args : List Expression} {l l' : List Visit} {info : Meta}

/-! ## Dimensions -/

theorem dimensions_cons {exprs : List Expression} {dims : List ℕ} :
    dimensions types environment (expr :: exprs) = some dims ↔ ∃ dim dims', dimension types environment expr = some dim ∧
      dimensions types environment exprs = some dims' ∧ dims = dim :: dims' := by
  rw [dimensions]
  simp only [Option.bind_eq_bind, Option.bind_eq_some_iff, Option.some.injEq]
  constructor
  · rintro ⟨dim, hdim, dims', hdims', rfl⟩
    exact ⟨dim, dims', hdim, hdims', rfl⟩
  · rintro ⟨dim, dims', hdim, hdims', rfl⟩
    exact ⟨dim, hdim, dims', hdims', rfl⟩

theorem dimension_arrayInLine {values : List Expression} {d : ℕ}
    (h : dimension types environment (.arrayInLine info values) = some d) :
    ∃ value rest dim, values = value :: rest ∧ dimension types environment value = some dim ∧ d = dim + 1 := by
  rw [dimension] at h
  obtain ⟨dims, hdims, h⟩ := Option.bind_eq_some_iff.mp h
  cases values with
  | nil =>
    obtain rfl := Option.some.inj hdims
    cases h
  | cons value rest =>
    obtain ⟨dim, dims', hdim, -, rfl⟩ := dimensions_cons.mp hdims
    dsimp only at h
    split_ifs at h
    exact ⟨value, rest, dim, rfl, hdim, (Option.some.inj h).symm⟩

theorem dimension_var {name : String} {access : List Access} {d : ℕ}
    (h : dimension types environment (.var info name access) = some d) :
    ∃ t, getType environment name = some t ∧ access.length ≤ t ∧ d = t - access.length := by
  rw [dimension] at h
  obtain ⟨t, ht, h⟩ := Option.bind_eq_some_iff.mp h
  split_ifs at h with hle
  exact ⟨t, ht, hle, (Option.some.inj h).symm⟩

theorem dimension_infixOp {lhe rhe : Expression} {op : ExpressionInfixOpcode} {d : ℕ}
    (h : dimension types environment (.infixOp info lhe op rhe) = some d) :
    dimension types environment lhe = some d ∧ dimension types environment rhe = some d := by
  rw [dimension] at h
  split_ifs at h with hzero
  rwa [← Option.some.inj h]

theorem dimension_prefixOp {rhe : Expression} {op : ExpressionPrefixOpcode} {d : ℕ}
    (h : dimension types environment (.prefixOp info op rhe) = some d) : dimension types environment rhe = some d := by
  rw [dimension] at h
  split_ifs at h with hzero
  rwa [← Option.some.inj h]

theorem dimension_inlineSwitchOp {cond ifTrue ifFalse : Expression} {d : ℕ}
    (h : dimension types environment (.inlineSwitchOp info cond ifTrue ifFalse) = some d) :
    dimension types environment ifTrue = some d ∧ dimension types environment ifFalse = some d := by
  rw [dimension] at h
  split_ifs at h with heq
  exact ⟨h, heq ▸ h⟩

theorem dimension_uniformArray {value length : Expression} {d : ℕ}
    (h : dimension types environment (.uniformArray info value length) = some d) :
    ∃ dim, dimension types environment value = some dim ∧ d = dim + 1 := by
  rw [dimension] at h
  obtain ⟨dim, hdim, rfl⟩ := Option.map_eq_some_iff.mp h
  exact ⟨dim, hdim, rfl⟩

theorem dimension_call {id : String} {d : ℕ} (h : dimension types environment (.call info id args) = some d) :
    ∃ dims, dimensions types environment args = some dims ∧ types id dims = some d := by
  rw [dimension] at h
  exact Option.bind_eq_some_iff.mp h

theorem eq_of_dimensions {paramsTypes dims : List ℕ} (hlength : args.length = paramsTypes.length)
    (hall : ∀ e ∈ args.zip paramsTypes, ∀ d, dimension types environment e.1 = some d → e.2 = d)
    (h : dimensions types environment args = some dims) : paramsTypes = dims := by
  induction args generalizing paramsTypes dims with
  | nil =>
    obtain rfl := Option.some.inj h
    exact List.length_eq_zero_iff.mp hlength.symm
  | cons arg args ih =>
    obtain ⟨dim, dims', hdim, hdims', rfl⟩ := dimensions_cons.mp h
    cases paramsTypes with
    | nil => cases hlength
    | cons t paramsTypes =>
      have hhead : t = dim := hall (arg, t) List.mem_cons_self dim hdim
      have htail := ih (Nat.succ.inj hlength) (fun e he => hall e (List.mem_cons_of_mem _ he)) hdims'
      rw [hhead, htail]

/-- What is computed is the dimension that a consistent assignment gives. -/
theorem Computable.eq_dimension (htypes : Consistent types functionInfo) {active : Finset String} {t : ℕ}
    (h : Computable functionInfo active environment expr t) :
    ∀ d, dimension types environment expr = some d → t = d := by
  induction h with
  | infixLeft info op rhe _ ih => exact fun d hd => ih d (dimension_infixOp hd).1
  | infixRight info op lhe _ ih => exact fun d hd => ih d (dimension_infixOp hd).2
  | prefixOp info op _ ih => exact fun d hd => ih d (dimension_prefixOp hd)
  | ifTrue info cond ifFalse _ ih => exact fun d hd => ih d (dimension_inlineSwitchOp hd).1
  | ifFalse info cond ifTrue _ ih => exact fun d hd => ih d (dimension_inlineSwitchOp hd).2
  | var info ht hle =>
    intro d hd
    obtain ⟨t, ht', -, rfl⟩ := dimension_var hd
    rw [Option.some.inj (ht.symm.trans ht')]
  | number info value => exact fun d hd => Option.some.inj hd
  | arrayInLine info values _ ih =>
    intro d hd
    obtain ⟨value, rest, dim, heq, hdim, rfl⟩ := dimension_arrayInLine hd
    obtain ⟨rfl, rfl⟩ := List.cons.inj heq
    rw [ih dim hdim]
  | uniformArray info length _ ih =>
    intro d hd
    obtain ⟨dim, hdim, rfl⟩ := dimension_uniformArray hd
    rw [ih dim hdim]
  | call info _ hlength _ hlookup hr _ ihargs ih =>
    intro d hd
    obtain ⟨dims, hdims, hcall⟩ := dimension_call hd
    obtain rfl := eq_of_dimensions hlength ihargs hdims
    obtain ⟨data, hlookup', hreturns⟩ := htypes _ _ _ hcall
    obtain rfl := Option.some.inj (hlookup.symm.trans hlookup')
    exact ih d (hreturns _ hr)

/-! ## What a search finds -/

/-- No function is called that has been explored before. -/
def Fresh (explored : Finset String) (l : List Visit) : Prop :=
  (∀ name ∈ explored, .called name ∉ l) ∧ NoneCalledAgain l

theorem Fresh.left {explored : Finset String} (h : Fresh explored (l ++ l')) : Fresh explored l :=
  ⟨fun name hname hmem => h.1 name hname (List.mem_append_left l' hmem), (List.pairwise_append.mp h.2).1⟩

theorem Fresh.right {explored explored' : Finset String} (h : Fresh explored (l ++ l'))
    (hsub : ∀ name ∈ explored', name ∈ explored ∨ .explored name ∈ l) : Fresh explored' l' := by
  obtain ⟨-, hnone, hbefore⟩ := List.pairwise_append.mp h.2
  refine ⟨fun name hname hmem => ?_, hnone⟩
  rcases hsub name hname with hname | hname
  · exact h.1 name hname (List.mem_append_right l hmem)
  · exact hbefore _ hname _ hmem name rfl rfl

theorem explored_append {explored explored' explored'' : Finset String}
    (h : ∀ name ∈ explored', name ∈ explored ∨ .explored name ∈ l)
    (h' : ∀ name ∈ explored'', name ∈ explored' ∨ .explored name ∈ l') :
    ∀ name ∈ explored'', name ∈ explored ∨ .explored name ∈ l ++ l' := by
  intro name hname
  rcases h' name hname with hname | hname
  · exact (h name hname).imp_right (List.mem_append_left l')
  · exact Or.inr (List.mem_append_right l hname)

/-- A search ends, and only explores more. It finds nothing or what can be computed. When no function is called again,
it explores what `l` lists and finds what can be computed. -/
def Finds {α : Type} (explored : Finset String) (result : Option (Option α × Finset String)) (d : α) (computable : Prop)
    (l : List Visit) : Prop :=
  ∃ t explored', result = some (t, explored') ∧ explored ⊆ explored' ∧ (t = none ∨ t = some d ∧ computable) ∧
    (Fresh explored l →
      (∀ name ∈ explored', name ∈ explored ∨ .explored name ∈ l) ∧ (computable → t = some d))

theorem Finds.congr {α : Type} {explored : Finset String} {result : Option (Option α × Finset String)} {d : α}
    {computable computable' : Prop} (h : Finds explored result d computable l)
    (hcomputable : computable ↔ computable') : Finds explored result d computable' l := by
  obtain ⟨t, explored', hresult, hsub, hfound, hfinds⟩ := h
  exact ⟨t, explored', hresult, hsub, hfound.imp_right (And.imp_right hcomputable.mp),
    fun hf => (hfinds hf).imp_right fun h hc => h (hcomputable.mpr hc)⟩

/-- A second search when the first one finds nothing. -/
theorem Finds.orElse {α : Type} {explored : Finset String} {first result : Option (Option α × Finset String)}
    {n : Finset String → Option (Option α × Finset String)} {d : α} {c c' p : Prop} [Decidable p]
    (h : Finds explored first d c l) (hp : p ↔ c)
    (hsome : ∀ t explored', first = some (some t, explored') → result = some (some t, explored'))
    (hnone : ∀ explored', first = some (none, explored') → result = n explored')
    (hnext : ∀ explored', explored ⊆ explored' → Finds explored' (n explored') d c' l') :
    Finds explored result d (c ∨ c') (l ++ if p then [] else l') := by
  obtain ⟨t, explored', hfirst, hsub, hfound, hfinds⟩ := h
  cases t with
  | some t =>
    obtain ⟨heq, hc⟩ := hfound.resolve_left (by simp)
    refine ⟨some t, explored', hsome t explored' hfirst, hsub, Or.inr ⟨heq, Or.inl hc⟩, fun hf => ?_⟩
    rw [if_pos (hp.mpr hc), List.append_nil] at hf ⊢
    exact ⟨(hfinds hf).1, fun _ => heq⟩
  | none =>
    obtain ⟨t', explored'', hresult, hsub', hfound', hfinds'⟩ := hnext explored' hsub
    refine ⟨t', explored'', (hnone explored' hfirst).trans hresult, hsub.trans hsub',
      hfound'.imp_right (And.imp_right Or.inr), fun hf => ?_⟩
    obtain ⟨hexplored, hnot⟩ := hfinds hf.left
    have hc : ¬ c := fun hc => by cases hnot hc
    rw [if_neg (mt hp.mp hc)] at hf ⊢
    obtain ⟨hexplored', hfinds'⟩ := hfinds' (hf.right hexplored)
    exact ⟨explored_append hexplored hexplored', fun hcs => hfinds' (hcs.resolve_left hc)⟩

theorem Finds.map {α β : Type} {explored : Finset String} {first : Option (Option α × Finset String)}
    {result : Option (Option β × Finset String)} {d : α} {c : Prop} (g : α → β) (h : Finds explored first d c l)
    (hresult : ∀ t explored', first = some (t, explored') → result = some (t.map g, explored')) :
    Finds explored result (g d) c l := by
  obtain ⟨t, explored', hfirst, hsub, hfound, hfinds⟩ := h
  refine ⟨t.map g, explored', hresult t explored' hfirst, hsub, ?_, fun hf => (hfinds hf).imp_right fun h hc => ?_⟩
  · rcases hfound with rfl | ⟨rfl, hc⟩
    · exact Or.inl rfl
    · exact Or.inr ⟨rfl, hc⟩
  · rw [h hc]
    rfl

/-- A search that needs what another one has found. -/
theorem Finds.andThen {α β : Type} {explored : Finset String} {first : Option (Option α × Finset String)}
    {result : Option (Option β × Finset String)} {n : α → Finset String → Option (Option β × Finset String)} {d : α}
    {d' : β} {c c' p : Prop} [Decidable p] (h : Finds explored first d c l) (hp : p ↔ c)
    (hsome : ∀ t explored', first = some (some t, explored') → result = n t explored')
    (hnone : ∀ explored', first = some (none, explored') → result = some (none, explored'))
    (hnext : ∀ explored', explored ⊆ explored' → Finds explored' (n d explored') d' c' l') :
    Finds explored result d' (c ∧ c') (l ++ if p then l' else []) := by
  obtain ⟨t, explored', hfirst, hsub, hfound, hfinds⟩ := h
  rcases hfound with rfl | ⟨rfl, hc⟩
  · refine ⟨none, explored', hnone explored' hfirst, hsub, Or.inl rfl, fun hf => ?_⟩
    obtain ⟨hexplored, hnot⟩ := hfinds hf.left
    have hc : ¬ c := fun hc => by cases hnot hc
    rw [if_neg (mt hp.mp hc), List.append_nil]
    exact ⟨hexplored, fun hcs => absurd hcs.1 hc⟩
  · obtain ⟨t', explored'', hresult, hsub', hfound', hfinds'⟩ := hnext explored' hsub
    refine ⟨t', explored'', (hsome d explored' hfirst).trans hresult, hsub.trans hsub',
      hfound'.imp_right (And.imp_right fun hc' => ⟨hc, hc'⟩), fun hf => ?_⟩
    have hexplored := (hfinds hf.left).1
    rw [if_pos (hp.mpr hc)] at hf ⊢
    obtain ⟨hexplored', hfinds'⟩ := hfinds' (hf.right hexplored)
    exact ⟨explored_append hexplored hexplored', fun hcs => hfinds' hcs.2⟩

/-- What a call lists first is no exploration. -/
theorem Finds.called {α : Type} {explored : Finset String} {result : Option (Option α × Finset String)} {d : α}
    {computable : Prop} (h : Finds explored result d computable l) (name : String) :
    Finds explored result d computable (.called name :: l) := by
  obtain ⟨t, explored', hresult, hsub, hfound, hfinds⟩ := h
  refine ⟨t, explored', hresult, hsub, hfound, fun hf => ?_⟩
  obtain ⟨hexplored, hcomputed⟩ := hfinds (hf.right (l := [.called name]) fun _ => Or.inl)
  exact ⟨fun name hname => (hexplored name hname).imp_right (List.mem_cons_of_mem _), hcomputed⟩

/-! ## Expressions -/

theorem isComputable_iff (htypes : Consistent types functionInfo) {active : Finset String} {d : ℕ}
    (hd : dimension types environment expr = some d) :
    IsComputable functionInfo active environment expr ↔ Computable functionInfo active environment expr d := by
  constructor
  · rintro ⟨t, ht⟩
    exact ht.eq_dimension htypes d hd ▸ ht
  · exact fun h => ⟨d, h⟩

theorem areComputable_iff (htypes : Consistent types functionInfo) {active : Finset String} {dims : List ℕ}
    (hdims : dimensions types environment args = some dims) :
    (∀ arg ∈ args, IsComputable functionInfo active environment arg) ↔
      args.length = dims.length ∧ ∀ e ∈ args.zip dims, Computable functionInfo active environment e.1 e.2 := by
  induction args generalizing dims with
  | nil =>
    obtain rfl := Option.some.inj hdims
    exact ⟨fun _ => ⟨rfl, nofun⟩, fun _ => nofun⟩
  | cons arg args ih =>
    obtain ⟨dim, dims', hdim, hdims', rfl⟩ := dimensions_cons.mp hdims
    rw [List.forall_mem_cons, isComputable_iff htypes hdim, ih hdims', List.zip_cons_cons, List.forall_mem_cons,
      List.length_cons, List.length_cons, Nat.succ_inj]
    exact and_left_comm

/-- The search of a function that is not active finds its dimension. -/
def StartFinds (types : Assignment) (functionInfo : HashMap String FunctionData)
    (start : Finset String → String → List ℕ → Option (Option ℕ × Finset String))
    (visits : Finset String → String → List ℕ → List Visit) (active : Finset String) : Prop :=
  ∀ id paramsTypes d explored, id ∉ active → types id paramsTypes = some d → active ⊆ explored →
    Finds explored (start explored id paramsTypes) d (ComputableCall functionInfo active id paramsTypes d)
      (visits active id paramsTypes)

section Expressions

open Classical

variable {start : Finset String → String → List ℕ → Option (Option ℕ × Finset String)}
  {visits : Finset String → String → List ℕ → List Visit} {active : Finset String}
  (htypes : Consistent types functionInfo) (hstart : StartFinds types functionInfo start visits active)
  {environment : Environment}

include htypes hstart

mutual

theorem finds_expression : ∀ expr {explored d}, active ⊆ explored → dimension types environment expr = some d →
    Finds explored (lookForTypeInExpression start environment explored expr) d
      (Computable functionInfo active environment expr d)
      (visitsOfExpression functionInfo types visits active environment expr)
  | .infixOp info lhe op rhe, explored, d, hactive, hd => by
    obtain ⟨hl, hr⟩ := dimension_infixOp hd
    rw [visitsOfExpression]
    refine ((finds_expression lhe hactive hl).orElse (isComputable_iff htypes hl)
      (fun t explored' h => ?_) (fun explored' h => ?_)
      (fun explored' hsub => finds_expression rhe (hactive.trans hsub) hr)).congr
      ⟨fun hc => hc.elim (.infixLeft info op rhe) (.infixRight info op lhe), fun hc => ?_⟩
    · rw [lookForTypeInExpression, h]
      rfl
    · rw [lookForTypeInExpression, h]
      rfl
    · cases hc with
      | infixLeft _ _ _ hc => exact Or.inl hc
      | infixRight _ _ _ hc => exact Or.inr hc
  | .prefixOp info op rhe, explored, d, hactive, hd => by
    rw [visitsOfExpression]
    refine (finds_expression rhe hactive (dimension_prefixOp hd)).congr ⟨.prefixOp info op, fun hc => ?_⟩
    cases hc with
    | prefixOp _ _ hc => exact hc
  | .inlineSwitchOp info cond ifTrue ifFalse, explored, d, hactive, hd => by
    obtain ⟨ht, hf⟩ := dimension_inlineSwitchOp hd
    rw [visitsOfExpression]
    refine ((finds_expression ifTrue hactive ht).orElse (isComputable_iff htypes ht)
      (fun t explored' h => ?_) (fun explored' h => ?_)
      (fun explored' hsub => finds_expression ifFalse (hactive.trans hsub) hf)).congr
      ⟨fun hc => hc.elim (.ifTrue info cond ifFalse) (.ifFalse info cond ifTrue), fun hc => ?_⟩
    · rw [lookForTypeInExpression, h]
      rfl
    · rw [lookForTypeInExpression, h]
      rfl
    · cases hc with
      | ifTrue _ _ _ hc => exact Or.inl hc
      | ifFalse _ _ _ hc => exact Or.inr hc
  | .var info name access, explored, d, hactive, hd => by
    obtain ⟨t, ht, hle, rfl⟩ := dimension_var hd
    have hc : Computable functionInfo active environment (.var info name access) (t - access.length) := .var info ht hle
    refine ⟨some (t - access.length), explored, ?_, Finset.Subset.refl _, Or.inr ⟨rfl, hc⟩,
      fun _ => ⟨fun _ => Or.inl, fun _ => rfl⟩⟩
    rw [lookForTypeInExpression, ht]
    show some (if access.length > t then none else some (t - access.length), explored) = _
    rw [if_neg (by omega)]
  | .number info value, explored, d, hactive, hd => by
    obtain rfl := Option.some.inj hd
    exact ⟨some 0, explored, rfl, Finset.Subset.refl _, Or.inr ⟨rfl, .number info value⟩,
      fun _ => ⟨fun _ => Or.inl, fun _ => rfl⟩⟩
  | .arrayInLine _ [], _, _, _, hd => by
    obtain ⟨value, rest, dim, hnil, -⟩ := dimension_arrayInLine hd
    cases hnil
  | .arrayInLine info (value :: values), explored, d, hactive, hd => by
    obtain ⟨_, _, dim, heq, hdim, rfl⟩ := dimension_arrayInLine hd
    obtain ⟨rfl, rfl⟩ := List.cons.inj heq
    rw [visitsOfExpression]
    refine ((finds_expression value hactive hdim).map (· + 1) (fun t explored' h => ?_)).congr
      ⟨.arrayInLine info values, fun hc => ?_⟩
    · rw [lookForTypeInExpression, h]
      rfl
    · cases hc with
      | arrayInLine _ _ hc => exact hc
  | .uniformArray info value length, explored, d, hactive, hd => by
    obtain ⟨dim, hdim, rfl⟩ := dimension_uniformArray hd
    rw [visitsOfExpression]
    refine ((finds_expression value hactive hdim).map (· + 1) (fun t explored' h => ?_)).congr
      ⟨.uniformArray info length, fun hc => ?_⟩
    · rw [lookForTypeInExpression, h]
      rfl
    · cases hc with
      | uniformArray _ _ hc => exact hc
  | .call info name args, explored, d, hactive, hd => by
    obtain ⟨dims, hdims, hcall⟩ := dimension_call hd
    rw [visitsOfExpression, hdims]
    by_cases hexplored : name ∈ explored
    · refine ⟨none, explored, ?_, Finset.Subset.refl _, Or.inl rfl, fun hf => ⟨fun _ => Or.inl, fun hc => ?_⟩⟩
      · rw [lookForTypeInExpression, if_pos hexplored]
      · cases hc with
        | call _ hinactive =>
          rw [if_neg hinactive] at hf
          exact absurd List.mem_cons_self (hf.1 name hexplored)
    · have hinactive : name ∉ active := fun h => hexplored (hactive h)
      rw [if_neg hinactive]
      refine (((finds_arguments args hactive hdims).andThen
        (n := fun paramsTypes explored => start explored name paramsTypes) (areComputable_iff htypes hdims)
        (fun t explored' h => ?_) (fun explored' h => ?_)
        (fun explored' hsub => hstart name dims d explored' hinactive hcall (hactive.trans hsub))).called name).congr ?_
      · rw [lookForTypeInExpression, if_neg hexplored, h]
        rfl
      · rw [lookForTypeInExpression, if_neg hexplored, h]
        rfl
      · constructor
        · rintro ⟨⟨hlength, hall⟩, data, hlookup, r, hr, hc⟩
          exact .call info hinactive hlength hall hlookup hr hc
        · intro hc
          cases hc with
          | call _ _ hlength hall hlookup hr hc =>
            obtain rfl := eq_of_dimensions hlength (fun e he => (hall e he).eq_dimension htypes) hdims
            exact ⟨⟨hlength, hall⟩, _, hlookup, _, hr, hc⟩
  | .parallelOp .., _, _, _, hd => nomatch hd
  | .busCall .., _, _, _, hd => nomatch hd
  | .anonymousComp .., _, _, _, hd => nomatch hd
  | .tuple .., _, _, _, hd => nomatch hd

theorem finds_arguments : ∀ args {explored dims}, active ⊆ explored → dimensions types environment args = some dims →
    Finds explored (lookForTypesOfArguments start environment explored args) dims
      (args.length = dims.length ∧ ∀ e ∈ args.zip dims, Computable functionInfo active environment e.1 e.2)
      (visitsOfArguments functionInfo types visits active environment args)
  | [], explored, dims, hactive, hdims => by
    obtain rfl := Option.some.inj hdims
    exact ⟨some [], explored, rfl, Finset.Subset.refl _, Or.inr ⟨rfl, rfl, nofun⟩,
      fun _ => ⟨fun _ => Or.inl, fun _ => rfl⟩⟩
  | arg :: args, explored, dims, hactive, hdims => by
    obtain ⟨dim, dims', hdim, hdims', rfl⟩ := dimensions_cons.mp hdims
    rw [visitsOfArguments]
    refine ((finds_expression arg hactive hdim).andThen
      (n := fun t explored => (lookForTypesOfArguments start environment explored args).bind
        fun found => some (found.1.map (t :: ·), found.2)) (isComputable_iff htypes hdim)
      (fun t explored' h => ?_) (fun explored' h => ?_)
      (fun explored' hsub => (finds_arguments args (hactive.trans hsub) hdims').map (dim :: ·)
        fun t explored'' h => ?_)).congr ⟨?_, ?_⟩
    · rw [lookForTypesOfArguments, h]
      rfl
    · rw [lookForTypesOfArguments, h]
      rfl
    · rw [h]
      rfl
    · rintro ⟨hc, hlength, hall⟩
      refine ⟨congrArg Nat.succ hlength, fun e he => ?_⟩
      rcases List.mem_cons.mp he with rfl | he
      · exact hc
      · exact hall e he
    · rintro ⟨hlength, hall⟩
      exact ⟨hall (arg, dim) List.mem_cons_self, Nat.succ.inj hlength, fun e he => hall e (List.mem_cons_of_mem _ he)⟩

end

end Expressions

/-! ## Statements -/

theorem length_declare (environment : Environment) (name : String) (t : ℕ) :
    (declare environment name t).length = environment.length := by
  cases environment with
  | nil => rfl
  | cons => rfl

mutual

/-- Every block that is opened is closed. -/
theorem length_returns : ∀ stmt environment, (returns environment stmt).2.length = environment.length
  | .ifThenElse _ _ ifCase none, environment => by
    rw [returns]
    exact length_returns ifCase environment
  | .ifThenElse _ _ ifCase (some elseCase), environment => by
    rw [returns]
    exact (length_returns elseCase _).trans (length_returns ifCase environment)
  | .whileStmt _ _ stmt, environment => by
    rw [returns]
    exact length_returns stmt environment
  | .initializationBlock _ _ initializations, environment => by
    rw [returns]
    exact length_returnsAll initializations environment
  | .declaration _ _ name dimensions _ _, environment => by
    rw [returns]
    exact length_declare environment name dimensions.length
  | .block _ stmts, environment => by
    rw [returns]
    show (returnsAll (∅ :: environment) stmts).2.tail.length = _
    rw [List.length_tail, length_returnsAll stmts, List.length_cons, Nat.add_sub_cancel]
  | .returnStmt .., _ | .substitution .., _ | .multSubstitution .., _ | .underscoreSubstitution .., _
  | .constraintEquality .., _ | .logCall .., _ | .assert .., _ => rfl

theorem length_returnsAll : ∀ stmts environment, (returnsAll environment stmts).2.length = environment.length
  | [], environment => rfl
  | stmt :: stmts, environment => by
    rw [returnsAll]
    exact (length_returnsAll stmts _).trans (length_returns stmt environment)

end

theorem returns_ne_nil (stmt : Statement) (h : environment ≠ []) : (returns environment stmt).2 ≠ [] := by
  rw [← List.length_pos_iff, length_returns]
  exact List.length_pos_iff.mpr h

theorem addVariableToEnvironment_eq (h : environment ≠ []) (name : String) (t : ℕ) :
    addVariableToEnvironment environment name t = some (declare environment name t) := by
  cases environment with
  | nil => exact absurd rfl h
  | cons => rfl

mutual

/-- In a statement that does not return nothing is found and nothing explored. -/
theorem look_of_hasReturn (start : Finset String → String → List ℕ → Option (Option ℕ × Finset String)) :
    ∀ stmt {environment} explored, environment ≠ [] → hasReturn stmt = false →
      lookForReturnInStatement start environment explored stmt = some (none, (returns environment stmt).2, explored) ∧
        (returns environment stmt).1 = []
  | .ifThenElse _ _ ifCase none, environment, explored, hne, h => by
    rw [lookForReturnInStatement, returns]
    exact look_of_hasReturn start ifCase explored hne h
  | .ifThenElse _ _ ifCase (some elseCase), environment, explored, hne, h => by
    obtain ⟨hif, helse⟩ := Bool.or_eq_false_iff.mp h
    obtain ⟨hlook, hreturns⟩ := look_of_hasReturn start ifCase explored hne hif
    obtain ⟨hlook', hreturns'⟩ := look_of_hasReturn start elseCase explored (returns_ne_nil ifCase hne) helse
    rw [lookForReturnInStatement, hlook, returns]
    exact ⟨hlook', List.append_eq_nil_iff.mpr ⟨hreturns, hreturns'⟩⟩
  | .whileStmt _ _ stmt, environment, explored, hne, h => by
    rw [lookForReturnInStatement, returns]
    exact look_of_hasReturn start stmt explored hne h
  | .initializationBlock _ _ initializations, environment, explored, hne, h => by
    obtain ⟨-, hlook, hreturns⟩ := look_of_haveReturn start initializations explored hne h
    rw [lookForReturnInStatement, hlook, returns]
    exact ⟨rfl, hreturns⟩
  | .declaration _ _ name dimensions _ _, environment, explored, hne, _ => by
    rw [lookForReturnInStatement, addVariableToEnvironment_eq hne, returns]
    exact ⟨rfl, rfl⟩
  | .block _ stmts, environment, explored, hne, h => by
    obtain ⟨hlook, -, hreturns⟩ := look_of_haveReturn start stmts explored (List.cons_ne_nil ∅ environment) h
    rw [lookForReturnInStatement, hlook, returns]
    exact ⟨rfl, hreturns⟩
  | .returnStmt .., _, _, _, h => nomatch h
  | .substitution .., _, _, _, _ | .multSubstitution .., _, _, _, _ | .underscoreSubstitution .., _, _, _, _
  | .constraintEquality .., _, _, _, _ | .logCall .., _, _, _, _ | .assert .., _, _, _, _ => ⟨rfl, rfl⟩

theorem look_of_haveReturn (start : Finset String → String → List ℕ → Option (Option ℕ × Finset String)) :
    ∀ stmts {environment} explored, environment ≠ [] → haveReturn stmts = false →
      lookForReturnInBlock start environment explored stmts = some (none, (returnsAll environment stmts).2, explored) ∧
        lookInInitializations start environment explored stmts = some ((returnsAll environment stmts).2, explored) ∧
        (returnsAll environment stmts).1 = []
  | [], _, _, _, _ => ⟨rfl, rfl, rfl⟩
  | stmt :: stmts, environment, explored, hne, h => by
    obtain ⟨hstmt, hstmts⟩ := Bool.or_eq_false_iff.mp h
    obtain ⟨hlook, hreturns⟩ := look_of_hasReturn start stmt explored hne hstmt
    obtain ⟨hblock, hinit, hreturns'⟩ := look_of_haveReturn start stmts explored (returns_ne_nil stmt hne) hstmts
    rw [lookForReturnInBlock, lookInInitializations, hlook, returnsAll]
    exact ⟨hblock, hinit, List.append_eq_nil_iff.mpr ⟨hreturns, hreturns'⟩⟩

end

section Statements

open Classical

variable {start : Finset String → String → List ℕ → Option (Option ℕ × Finset String)}
  {visits : Finset String → String → List ℕ → List Visit} {active : Finset String}

/-- One of the return expressions can be computed. -/
def SomeComputable (functionInfo : HashMap String FunctionData) (active : Finset String)
    (rs : List (Environment × Expression)) (d : ℕ) : Prop :=
  ∃ r ∈ rs, Computable functionInfo active r.1 r.2 d

theorem someComputable_append {rs' : List (Environment × Expression)} {d : ℕ} :
    SomeComputable functionInfo active (rs ++ rs') d ↔
      SomeComputable functionInfo active rs d ∨ SomeComputable functionInfo active rs' d := by
  simp only [SomeComputable, List.mem_append, or_and_right, exists_or]

theorem visitsOfReturns_append (htypes : Consistent types functionInfo) {d : ℕ}
    (hd : ∀ r ∈ rs, dimension types r.1 r.2 = some d) (rs' : List (Environment × Expression)) :
    visitsOfReturns functionInfo types visits active (rs ++ rs') = visitsOfReturns functionInfo types visits active rs ++
      if SomeComputable functionInfo active rs d then [] else visitsOfReturns functionInfo types visits active rs' := by
  induction rs with
  | nil =>
    have hnone : ¬ SomeComputable functionInfo active [] d := by
      rintro ⟨r, hr, -⟩
      cases hr
    rw [if_neg hnone]
    rfl
  | cons r rs ih =>
    rw [List.forall_mem_cons] at hd
    rw [List.cons_append, visitsOfReturns, visitsOfReturns, ih hd.2, List.append_assoc]
    have hr : IsComputable functionInfo active r.1 r.2 ↔ Computable functionInfo active r.1 r.2 d :=
      isComputable_iff htypes hd.1
    have hcons : SomeComputable functionInfo active (r :: rs) d ↔
        Computable functionInfo active r.1 r.2 d ∨ SomeComputable functionInfo active rs d := by
      simp only [SomeComputable, List.exists_mem_cons_iff]
    by_cases hc : Computable functionInfo active r.1 r.2 d
    · rw [if_pos (hr.mpr hc), if_pos (hr.mpr hc), if_pos (hcons.mpr (Or.inl hc))]
      rfl
    · have hiff : SomeComputable functionInfo active (r :: rs) d ↔ SomeComputable functionInfo active rs d :=
        hcons.trans ⟨fun h => h.resolve_left hc, Or.inr⟩
      rw [if_neg (mt hr.mp hc), if_neg (mt hr.mp hc), if_congr hiff rfl rfl]

/-- The search of a statement with the return expressions `rs`, after which the environment is `after` if nothing was
found. -/
structure FindsReturn (types : Assignment) (functionInfo : HashMap String FunctionData)
    (visits : Finset String → String → List ℕ → List Visit) (active explored : Finset String)
    (rs : List (Environment × Expression)) (after : Environment)
    (result : Option (Option ℕ × Environment × Finset String)) (d : ℕ) : Prop where
  finds : Finds explored (result.map fun found => (found.1, found.2.2)) d (SomeComputable functionInfo active rs d)
    (visitsOfReturns functionInfo types visits active rs)
  after : ∀ environment' explored', result = some (none, environment', explored') → environment' = after

theorem findsReturn_nothing {explored : Finset String} {after : Environment}
    {result : Option (Option ℕ × Environment × Finset String)} {d : ℕ} (h : result = some (none, after, explored)) :
    FindsReturn types functionInfo visits active explored [] after result d := by
  subst h
  refine ⟨⟨none, explored, rfl, Finset.Subset.refl _, Or.inl rfl, fun _ => ⟨fun _ => Or.inl, ?_⟩⟩, ?_⟩
  · rintro ⟨r, hr, -⟩
    cases hr
  · intro environment' explored' h
    cases h
    rfl

/-- A second statement when nothing was found in the first one. -/
theorem FindsReturn.orElse (htypes : Consistent types functionInfo) {explored : Finset String} {middle after : Environment}
    {d : ℕ} {first result : Option (Option ℕ × Environment × Finset String)} {rs' : List (Environment × Expression)}
    {n : Environment → Finset String → Option (Option ℕ × Environment × Finset String)}
    (h : FindsReturn types functionInfo visits active explored rs middle first d)
    (hd : ∀ r ∈ rs, dimension types r.1 r.2 = some d)
    (hsome : ∀ t environment' explored', first = some (some t, environment', explored') →
      result = some (some t, environment', explored'))
    (hnone : ∀ environment' explored', first = some (none, environment', explored') → result = n environment' explored')
    (hnext : ∀ explored', explored ⊆ explored' →
      FindsReturn types functionInfo visits active explored' rs' after (n middle explored') d) :
    FindsReturn types functionInfo visits active explored (rs ++ rs') after result d := by
  obtain ⟨hfinds, hmiddle⟩ := h
  constructor
  · rw [visitsOfReturns_append htypes hd]
    refine (hfinds.orElse (n := fun explored => (n middle explored).map fun found => (found.1, found.2.2)) Iff.rfl
      (fun t explored' h => ?_) (fun explored' h => ?_) (fun explored' hsub => (hnext explored' hsub).finds)).congr
      someComputable_append.symm
    · obtain ⟨⟨_, environment', _⟩, hfirst, heq⟩ := Option.map_eq_some_iff.mp h
      cases heq
      rw [hsome _ _ _ hfirst]
      rfl
    · obtain ⟨⟨_, environment', _⟩, hfirst, heq⟩ := Option.map_eq_some_iff.mp h
      cases heq
      obtain rfl := hmiddle _ _ hfirst
      rw [hnone _ _ hfirst]
  · intro environment'' explored'' hresult
    obtain ⟨_, _, hmap, hsub, -⟩ := hfinds
    obtain ⟨⟨t, environment', explored'⟩, hfirst, heq⟩ := Option.map_eq_some_iff.mp hmap
    cases heq
    cases t with
    | some t => cases (hsome t environment' explored' hfirst).symm.trans hresult
    | none =>
      obtain rfl := hmiddle _ _ hfirst
      exact (hnext explored' hsub).after environment'' explored'' ((hnone _ _ hfirst).symm.trans hresult)

variable (htypes : Consistent types functionInfo) (hstart : StartFinds types functionInfo start visits active) {d : ℕ}

include htypes hstart

mutual

theorem finds_statement : ∀ stmt {environment explored}, active ⊆ explored → environment ≠ [] → Parsed stmt →
    (∀ r ∈ (returns environment stmt).1, dimension types r.1 r.2 = some d) →
    FindsReturn types functionInfo visits active explored (returns environment stmt).1 (returns environment stmt).2
      (lookForReturnInStatement start environment explored stmt) d
  | .ifThenElse _ _ ifCase none, environment, explored, hactive, hne, hparsed, hd => by
    rw [returns] at hd ⊢
    rw [lookForReturnInStatement]
    rw [Parsed] at hparsed
    exact finds_statement ifCase hactive hne hparsed hd
  | .ifThenElse _ _ ifCase (some elseCase), environment, explored, hactive, hne, hparsed, hd => by
    rw [returns] at hd ⊢
    rw [Parsed] at hparsed
    have hif := fun r hr => hd r (List.mem_append_left _ hr)
    refine (finds_statement ifCase hactive hne hparsed.1 hif).orElse htypes
      (n := fun environment explored => lookForReturnInStatement start environment explored elseCase) hif
      (fun t environment' explored' h => ?_) (fun environment' explored' h => ?_)
      (fun explored' hsub => finds_statement elseCase (hactive.trans hsub) (returns_ne_nil ifCase hne) hparsed.2
        fun r hr => hd r (List.mem_append_right _ hr))
    · rw [lookForReturnInStatement, h]
      rfl
    · rw [lookForReturnInStatement, h]
      rfl
  | .whileStmt _ _ stmt, environment, explored, hactive, hne, hparsed, hd => by
    rw [returns] at hd ⊢
    rw [lookForReturnInStatement]
    rw [Parsed] at hparsed
    exact finds_statement stmt hactive hne hparsed hd
  | .returnStmt _ value, environment, explored, hactive, hne, hparsed, hd => by
    rw [returns] at hd ⊢
    rw [lookForReturnInStatement]
    have hvalue : dimension types environment value = some d := hd (environment, value) List.mem_cons_self
    have hfinds := finds_expression htypes hstart value hactive hvalue
    obtain ⟨t, explored', hresult, -⟩ := id hfinds
    rw [hresult] at hfinds ⊢
    refine ⟨?_, fun environment' explored'' h => ?_⟩
    · show Finds explored (some (t, explored')) d (SomeComputable functionInfo active [(environment, value)] d)
        (visitsOfReturns functionInfo types visits active [(environment, value)])
      rw [visitsOfReturns, visitsOfReturns, ite_self, List.append_nil]
      refine hfinds.congr ?_
      simp only [SomeComputable, List.mem_singleton, exists_eq_left]
    · cases h
      rfl
  | .initializationBlock _ _ initializations, environment, explored, hactive, hne, hparsed, hd => by
    rw [Parsed] at hparsed
    obtain ⟨hlook, hreturns⟩ := look_of_hasReturn start (.initializationBlock _ _ initializations) explored hne hparsed
    rw [hreturns]
    exact findsReturn_nothing hlook
  | .declaration _ _ name dimensions _ _, environment, explored, hactive, hne, hparsed, hd => by
    rw [returns]
    refine findsReturn_nothing ?_
    rw [lookForReturnInStatement, addVariableToEnvironment_eq hne]
    rfl
  | .block _ stmts, environment, explored, hactive, hne, hparsed, hd => by
    rw [returns] at hd ⊢
    rw [lookForReturnInStatement]
    rw [Parsed] at hparsed
    obtain ⟨hfinds, hafter⟩ := finds_block stmts hactive (List.cons_ne_nil ∅ environment) hparsed hd
    obtain ⟨t, explored', hresult, -⟩ := id hfinds
    obtain ⟨⟨_, environment', _⟩, hlook, heq⟩ := Option.map_eq_some_iff.mp hresult
    cases heq
    rw [hlook] at hfinds ⊢
    refine ⟨hfinds, fun environment'' explored'' h => ?_⟩
    cases h
    exact congrArg List.tail (hafter _ _ hlook)
  | .substitution .., _, _, _, _, _, _ => findsReturn_nothing rfl
  | .multSubstitution .., _, _, _, _, _, _ => findsReturn_nothing rfl
  | .underscoreSubstitution .., _, _, _, _, _, _ => findsReturn_nothing rfl
  | .constraintEquality .., _, _, _, _, _, _ => findsReturn_nothing rfl
  | .logCall .., _, _, _, _, _, _ => findsReturn_nothing rfl
  | .assert .., _, _, _, _, _, _ => findsReturn_nothing rfl

theorem finds_block : ∀ stmts {environment explored}, active ⊆ explored → environment ≠ [] → ParsedAll stmts →
    (∀ r ∈ (returnsAll environment stmts).1, dimension types r.1 r.2 = some d) →
    FindsReturn types functionInfo visits active explored (returnsAll environment stmts).1
      (returnsAll environment stmts).2 (lookForReturnInBlock start environment explored stmts) d
  | [], environment, explored, hactive, hne, hparsed, hd => findsReturn_nothing rfl
  | stmt :: stmts, environment, explored, hactive, hne, hparsed, hd => by
    rw [returnsAll] at hd ⊢
    rw [ParsedAll] at hparsed
    have hstmt := fun r hr => hd r (List.mem_append_left _ hr)
    refine (finds_statement stmt hactive hne hparsed.1 hstmt).orElse htypes
      (n := fun environment explored => lookForReturnInBlock start environment explored stmts) hstmt
      (fun t environment' explored' h => ?_) (fun environment' explored' h => ?_)
      (fun explored' hsub => finds_block stmts (hactive.trans hsub) (returns_ne_nil stmt hne) hparsed.2
        fun r hr => hd r (List.mem_append_right _ hr))
    · rw [lookForReturnInBlock, h]
      rfl
    · rw [lookForReturnInBlock, h]
      rfl

end

end Statements

/-! ## Functions -/

/-- The names of the functions. -/
def functionNames (functionInfo : HashMap String FunctionData) : Finset String := functionInfo.keys.toFinset

theorem mem_inactive {name : String} {data : FunctionData} {active : Finset String}
    (hlookup : functionInfo.lookup name = some data) (hinactive : name ∉ active) :
    name ∈ functionNames functionInfo \ active :=
  Finset.mem_sdiff.mpr
    ⟨List.mem_toFinset.mpr (AList.mem_keys.mp (AList.lookup_isSome.mp (by rw [hlookup]; rfl))), hinactive⟩

/-- A function counts as explored when its body is searched. -/
theorem Finds.explored {α : Type} {name : String} {explored : Finset String} {result : Option (Option α × Finset String)}
    {d : α} {computable : Prop} (h : Finds (insert name explored) result d computable l) :
    Finds explored result d computable (.explored name :: l) := by
  obtain ⟨t, explored', hresult, hsub, hfound, hfinds⟩ := h
  refine ⟨t, explored', hresult, (Finset.subset_insert name explored).trans hsub, hfound, fun hf => ?_⟩
  have hbody : Fresh (insert name explored) l := hf.right (l := [.explored name]) fun name' hname =>
    (Finset.mem_insert.mp hname).elim (fun h => Or.inr (h ▸ List.mem_cons_self)) Or.inl
  refine (hfinds hbody).imp_left fun hexplored name' hname => ?_
  rcases hexplored name' hname with hname | hname
  · rcases Finset.mem_insert.mp hname with rfl | hname
    · exact Or.inr List.mem_cons_self
    · exact Or.inl hname
  · exact Or.inr (List.mem_cons_of_mem _ hname)

/-- A function is searched inside of others that are active, so the nesting is bounded by the number of functions. -/
theorem startFinds (htypes : Consistent types functionInfo)
    (hparsed : ∀ name data, functionInfo.lookup name = some data → ParsedAll data.body) (depth : ℕ) {fuel : ℕ}
    (hfuel : depth ≤ fuel) {active : Finset String} (hdepth : (functionNames functionInfo \ active).card ≤ depth) :
    StartFinds types functionInfo (start functionInfo fuel) (visitsInside functionInfo types depth) active := by
  induction depth generalizing fuel active with
  | zero =>
    intro id paramsTypes d explored hinactive hd _
    obtain ⟨data, hlookup, -⟩ := htypes id paramsTypes d hd
    have := Finset.card_pos.mpr ⟨id, mem_inactive hlookup hinactive⟩
    omega
  | succ depth ih =>
    intro id paramsTypes d explored hinactive hd hactive
    obtain ⟨data, hlookup, hreturns⟩ := htypes id paramsTypes d hd
    have hcard : (functionNames functionInfo \ insert id active).card ≤ depth := by
      rw [Finset.sdiff_insert, Finset.card_erase_of_mem (mem_inactive hlookup hinactive)]
      omega
    cases fuel with
    | zero => cases hfuel
    | succ fuel =>
      have hfinds := (finds_block htypes (ih (Nat.le_of_succ_le_succ hfuel) hcard) data.body
        (Finset.insert_subset_insert id hactive) (List.cons_ne_nil (initialBlock data paramsTypes) [])
        (hparsed id data hlookup) hreturns).finds
      have hresult : start functionInfo (fuel + 1) explored id paramsTypes =
          (lookForReturnInBlock (start functionInfo fuel) [initialBlock data paramsTypes] (insert id explored)
            data.body).map fun found => (found.1, found.2.2) := by
        rw [start, hlookup, Option.map_eq_bind]
        rfl
      rw [hresult, visitsInside, hlookup]
      refine hfinds.explored.congr ⟨fun hc => ⟨data, hlookup, hc⟩, ?_⟩
      rintro ⟨data', hlookup', hc⟩
      obtain rfl := Option.some.inj (hlookup.symm.trans hlookup')
      exact hc

/-- The search of a function whose return expressions can be typed ends without panic and returns no wrong dimension.
When no function is called after it has been explored, it finds the dimension exactly if it can be computed. -/
theorem typeGivenFunction_spec
    (hparsed : ∀ name data, functionInfo.lookup name = some data → ParsedAll data.body)
    (htypes : Consistent types functionInfo) {name : String} {paramsTypes : List ℕ} {d : ℕ}
    (hd : types name paramsTypes = some d) :
    ∃ bound, ∀ fuel ≥ bound, ∃ result, typeGivenFunction functionInfo fuel name paramsTypes = some result ∧
      (result = none ∨ result = some d ∧ ComputableCall functionInfo ∅ name paramsTypes d) ∧
      (NoneCalledAgain (visits functionInfo types name paramsTypes) →
        (result = some d ↔ ComputableCall functionInfo ∅ name paramsTypes d)) := by
  refine ⟨functionInfo.keys.length, fun fuel hfuel => ?_⟩
  have hdepth : (functionNames functionInfo \ ∅).card ≤ functionInfo.keys.length := by
    rw [Finset.sdiff_empty]
    exact List.toFinset_card_le functionInfo.keys
  obtain ⟨t, explored', hresult, -, hfound, hfinds⟩ := startFinds htypes hparsed _ hfuel hdepth name paramsTypes d ∅
    (Finset.notMem_empty name) hd (Finset.Subset.refl ∅)
  refine ⟨t, by rw [typeGivenFunction, hresult]; rfl, hfound, fun hnone => ⟨fun ht => ?_, ?_⟩⟩
  · exact (hfound.resolve_left (by rw [ht]; simp)).2
  · exact (hfinds ⟨fun name hname => absurd hname (Finset.notMem_empty name), hnone⟩).2

/-! ## Two programs -/

def here : Meta := ⟨0, 0, none⟩

/-- `var (m, r) = (n, 1); if (m) { return factorial(m - 1) * m; } else { return r; }` without the tuples. -/
def factorialBody : List Statement :=
  [.initializationBlock here .var
    [.declaration here .var "m" [] true false, .declaration here .var "r" [] true false,
     .block here
      [.substitution here "m" [] .assignVar (.var here "n" []), .substitution here "r" [] .assignVar (.number here 1)]],
   .ifThenElse here (.var here "m" [])
    (.returnStmt here (.infixOp here
      (.call here "factorial" [.infixOp here (.var here "m" []) .sub (.number here 1)]) .mul (.var here "m" [])))
    (some (.returnStmt here (.var here "r" [])))]

/-- `function binomial(n, k) { return factorial(n) / k; }` and `function factorial(n)` with `factorialBody`. -/
def factorialInfo : HashMap String FunctionData := AList.ofPairs
  [("binomial", ⟨["n", "k"],
      [.returnStmt here (.infixOp here (.call here "factorial" [.var here "n" []]) .div (.var here "k" []))]⟩),
    ("factorial", ⟨["n"], factorialBody⟩)]

/-- A variable is given the dimension that is listed for its function and arguments. -/
def scalarFor (calls : List (String × List ℕ)) : Assignment := fun name paramsTypes =>
  if (name, paramsTypes) ∈ calls then some 0 else none

theorem consistent_scalarFor {calls : List (String × List ℕ)}
    (h : ∀ call ∈ calls, ∃ data, functionInfo.lookup call.1 = some data ∧
      ∀ r ∈ data.returns call.2, dimension (scalarFor calls) r.1 r.2 = some 0) :
    Consistent (scalarFor calls) functionInfo := by
  intro name paramsTypes t ht
  rw [scalarFor] at ht
  split_ifs at ht with hmem
  obtain rfl := Option.some.inj ht
  exact h _ hmem

def factorialTypes : Assignment := scalarFor [("binomial", [0, 0]), ("factorial", [0])]

theorem consistent_factorialInfo : Consistent factorialTypes factorialInfo := by
  refine consistent_scalarFor fun call hcall => ?_
  simp only [List.mem_cons, List.not_mem_nil, or_false] at hcall
  rcases hcall with rfl | rfl
  · refine ⟨_, rfl, fun r hr => ?_⟩
    obtain rfl := List.mem_singleton.mp hr
    rfl
  · refine ⟨_, rfl, fun r hr => ?_⟩
    rcases List.mem_cons.mp hr with rfl | hr
    · rfl
    · obtain rfl := List.mem_singleton.mp hr
      rfl

theorem computableCall_factorialInfo : ComputableCall factorialInfo ∅ "binomial" [0, 0] 0 := by
  have hn : getType [initialBlock ⟨["n", "k"], []⟩ [0, 0]] "n" = some 0 := rfl
  refine ⟨_, rfl, _, List.mem_cons_self, .infixLeft here .div _ (.call here (by decide) (show _ = [0].length from rfl)
    (fun e he => List.mem_singleton.mp he ▸ .var here hn (Nat.zero_le 0)) rfl (List.mem_cons_of_mem _ List.mem_cons_self)
      (.var here (show _ = some 0 from rfl) (Nat.zero_le 0)))⟩

theorem visits_factorialInfo : visits factorialInfo factorialTypes "binomial" [0, 0] =
    [.explored "binomial", .called "factorial", .explored "factorial"] := by
  have hargs : ∀ arg ∈ [Expression.var here "n" []], IsComputable factorialInfo {"binomial"}
      [initialBlock ⟨["n", "k"], []⟩ [0, 0]] arg := by
    intro arg harg
    obtain rfl := List.mem_singleton.mp harg
    exact ⟨0, .var here (show _ = some 0 from rfl) (Nat.zero_le 0)⟩
  -- in the body of `factorial` its own call is left out
  have hbody : visitsOfReturns factorialInfo factorialTypes (visitsInside factorialInfo factorialTypes 0)
      {"factorial", "binomial"} (FunctionData.returns ⟨["n"], factorialBody⟩ [0]) = [] := by
    simp [factorialBody, FunctionData.returns, returnsAll, returns, visitsOfReturns, visitsOfExpression]
  have hcall : visitsOfExpression factorialInfo factorialTypes (visitsInside factorialInfo factorialTypes 1)
      {"binomial"} [initialBlock ⟨["n", "k"], []⟩ [0, 0]] (.call here "factorial" [.var here "n" []]) =
        [.called "factorial", .explored "factorial"] := by
    rw [visitsOfExpression, if_neg (by decide), if_pos hargs]
    simp only [visitsOfArguments, visitsOfExpression, ite_self, List.append_nil]
    exact congrArg (fun l => [Visit.called "factorial", .explored "factorial"] ++ l) hbody
  show .explored "binomial" :: visitsOfReturns factorialInfo factorialTypes (visitsInside factorialInfo factorialTypes 1)
    {"binomial"} [([initialBlock ⟨["n", "k"], []⟩ [0, 0]],
      .infixOp here (.call here "factorial" [.var here "n" []]) .div (.var here "k" []))] = _
  rw [visitsOfReturns, visitsOfReturns, visitsOfExpression, hcall]
  simp only [visitsOfExpression, ite_self, List.append_nil]

theorem typeGivenFunction_spec_factorial :
    NoneCalledAgain (visits factorialInfo factorialTypes "binomial" [0, 0]) ∧
      ∃ bound, ∀ fuel ≥ bound, typeGivenFunction factorialInfo fuel "binomial" [0, 0] = some (some 0) := by
  have hnone : NoneCalledAgain (visits factorialInfo factorialTypes "binomial" [0, 0]) := by
    rw [visits_factorialInfo]
    simp [NoneCalledAgain]
  have hparsed : ∀ name data, factorialInfo.lookup name = some data → ParsedAll data.body := by
    intro name data h
    have hmem := AList.mem_of_lookup_ofPairs h
    simp only [List.mem_cons, Prod.mk.injEq, List.not_mem_nil, or_false] at hmem
    rcases hmem with ⟨-, rfl⟩ | ⟨-, rfl⟩
    · exact ⟨trivial, trivial⟩
    · exact ⟨rfl, ⟨trivial, trivial⟩, trivial⟩
  obtain ⟨bound, hbound⟩ := typeGivenFunction_spec hparsed consistent_factorialInfo
    (show factorialTypes "binomial" [0, 0] = some 0 from rfl)
  refine ⟨hnone, bound, fun fuel hfuel => ?_⟩
  obtain ⟨result, hresult, -, hiff⟩ := hbound fuel hfuel
  rw [hresult, (hiff hnone).mpr computableCall_factorialInfo]

/-- `function g(x) { return 0; } function h(x, y) { return x; } function f() { return h(g(0), g(1)); }` -/
def calledTwice : HashMap String FunctionData := AList.ofPairs
  [("g", ⟨["x"], [.returnStmt here (.number here 0)]⟩),
    ("h", ⟨["x", "y"], [.returnStmt here (.var here "x" [])]⟩),
    ("f", ⟨[], [.returnStmt here (.call here "h" [.call here "g" [.number here 0], .call here "g" [.number here 1]])]⟩)]

theorem consistent_calledTwice : Consistent (scalarFor [("f", []), ("g", [0]), ("h", [0, 0])]) calledTwice := by
  refine consistent_scalarFor fun call hcall => ?_
  simp only [List.mem_cons, List.not_mem_nil, or_false] at hcall
  rcases hcall with rfl | rfl | rfl
  all_goals
    refine ⟨_, rfl, fun r hr => ?_⟩
    obtain rfl := List.mem_singleton.mp hr
    rfl

theorem computableCall_calledTwice : ComputableCall calledTwice ∅ "f" [] 0 := by
  have hg : ∀ value : ℤ, Computable calledTwice {"f"} [∅] (.call here "g" [.number here value]) 0 := fun value =>
    .call here (by decide) (show _ = [0].length from rfl)
      (fun e he => List.mem_singleton.mp he ▸ .number here value) rfl List.mem_cons_self (.number here 0)
  refine ⟨_, rfl, _, List.mem_cons_self, .call here (by decide) (show _ = [0, 0].length from rfl)
    (fun e he => ?_) rfl List.mem_cons_self (.var here (show _ = some 0 from rfl) (Nat.zero_le 0))⟩
  rcases List.mem_cons.mp he with rfl | he
  · exact hg 0
  · exact List.mem_singleton.mp he ▸ hg 1

/-- The second call of `g` counts as recursive, so nothing is found for `f` although its dimension can be computed. -/
theorem not_typeGivenFunction_eq : ¬ ∀ (functionInfo : HashMap String FunctionData) (types : Assignment) (name : String)
    (paramsTypes : List ℕ) (d : ℕ), Accepted functionInfo →
    (∀ name data, functionInfo.lookup name = some data → ParsedAll data.body) → Consistent types functionInfo →
    types name paramsTypes = some d → ComputableCall functionInfo ∅ name paramsTypes d →
      ∃ bound, ∀ fuel ≥ bound, typeGivenFunction functionInfo fuel name paramsTypes = some (some d) := by
  intro hall
  have haccepted : Accepted calledTwice := by
    intro e he
    change e ∈ [_, _, _] at he
    simp only [List.mem_cons, List.not_mem_nil, or_false] at he
    rcases he with rfl | rfl | rfl <;> exact ⟨rfl, rfl, rfl⟩
  have hparsed : ∀ name data, calledTwice.lookup name = some data → ParsedAll data.body := by
    intro name data h
    have hmem := AList.mem_of_lookup_ofPairs h
    simp only [List.mem_cons, Prod.mk.injEq, List.not_mem_nil, or_false] at hmem
    rcases hmem with ⟨-, rfl⟩ | ⟨-, rfl⟩ | ⟨-, rfl⟩ <;> exact ⟨trivial, trivial⟩
  obtain ⟨bound, hbound⟩ := hall calledTwice _ "f" [] 0 haccepted hparsed consistent_calledTwice rfl
    computableCall_calledTwice
  have hnone : typeGivenFunction calledTwice (bound + 3) "f" [] = some none := rfl
  cases (hbound (bound + 3) (by omega)).symm.trans hnone

end Circom.TypeAnalysis.TypeGivenFunction
