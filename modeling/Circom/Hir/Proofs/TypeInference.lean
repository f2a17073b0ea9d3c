import Circom.Hir.IntendedInference
import Mathlib.Data.Finset.Card

/-!
# The inference of return types

The search ends: the calls that are open at the same time are calls of different functions. As long as every
argument has a type, the search does what it is meant to do. A call with an argument without a type is left
without closing it.
-/

/-!
## Relations between searches

A relation between two kinds of searches that is kept by the operations is kept by the whole walk. There may be a
stronger one for the expressions.
-/

namespace Circom.Hir

open Circom.Ast
open Circom.Lib (HashMap)
open Circom.ProgramStructure (Variables)

variable {openCalls : Finset String}

/-- The relation holds for results, is kept by sequences, and relates the operations of expressions. -/
structure RelatedExpressions {m n : Type → Type} [Monad m] [Monad n]
    (R : {α : Type} → m α → n α → Prop) (ops : Search m) (ops' : Search n) : Prop where
  pure : ∀ {α : Type} (a : α), R (Pure.pure a) (Pure.pure a)
  bind : ∀ {α β : Type} {x : m α} {y : n α} {f : α → m β} {g : α → n β}, R x y → (∀ a, R (f a) (g a)) →
    R (x >>= f) (y >>= g)
  lookup : ∀ name, R (ops.lookup name) (ops'.lookup name)
  call : ∀ id {x : m (Option (List VCT))} {y : n (Option (List VCT))}, R x y →
    R (ops.call id x) (ops'.call id y)
  panic : ∀ {α : Type}, R (ops.panic : m α) (ops'.panic : n α)

/-- The relation of statements, which follows from that of expressions. -/
structure RelatedSearches {m n : Type → Type} [Monad m] [Monad n]
    (R S : {α : Type} → m α → n α → Prop) (ops : Search m) (ops' : Search n) : Prop
    extends RelatedExpressions R ops ops' where
  ofExpression : ∀ {α : Type} {x : m α} {y : n α}, R x y → S x y
  sequence : ∀ {α β : Type} {x : m α} {y : n α} {f : α → m β} {g : α → n β}, S x y → (∀ a, S (f a) (g a)) →
    S (x >>= f) (y >>= g)
  declare : ∀ name type, S (ops.declare name type) (ops'.declare name type)
  block : ∀ {α : Type} {x : m α} {y : n α}, S x y → S (ops.block x) (ops'.block y)

variable {m n : Type → Type} [Monad m] [Monad n] {R S : {α : Type} → m α → n α → Prop} {ops : Search m}
  {ops' : Search n}

namespace RelatedExpressions

theorem withType (h : RelatedExpressions R ops ops') {α β : Type} {x : m (Option α)} {y : n (Option α)}
    {f : α → m (Option β)} {g : α → n (Option β)} (hx : R x y) (hf : ∀ a, R (f a) (g a)) :
    R (Hir.withType x f) (Hir.withType y g) := by
  refine h.bind hx fun o => ?_
  cases o with
  | none => exact h.pure none
  | some a => exact hf a

theorem unwrap (h : RelatedExpressions R ops ops') {α : Type} (o : Option α) :
    R (Hir.unwrap ops o) (Hir.unwrap ops' o) := by
  cases o with
  | none => exact h.panic
  | some a => exact h.pure a

mutual

theorem expression (h : RelatedExpressions R ops ops') : ∀ e : Expression,
    R (inferTypeExpression ops e) (inferTypeExpression ops' e)
  | .call _ id args => h.call id (args_ h args)
  | .var _ name access => by
    refine h.bind (h.lookup name) fun type => ?_
    by_cases hle : access.length ≤ type.length
    · rw [if_pos hle, if_pos hle]
      exact h.pure _
    · rw [if_neg hle, if_neg hle]
      exact h.panic
  | .arrayInLine _ [] => h.panic
  | .arrayInLine _ (value :: values) =>
    h.withType (expression h value) fun type => h.withType (elements h values type) fun _ => h.pure _
  | .uniformArray _ value dimension =>
    h.bind (h.unwrap (castDimension dimension)) fun _ => h.withType (expression h value) fun _ => h.pure _
  | .inlineSwitchOp _ _ ifTrue ifFalse => by
    refine h.bind (expression h ifTrue) fun castsTo => ?_
    by_cases hnone : castsTo.isNone
    · rw [if_pos hnone, if_pos hnone]
      exact expression h ifFalse
    · rw [if_neg hnone, if_neg hnone]
      exact h.pure castsTo
  | .infixOp .. => h.pure _
  | .prefixOp .. => h.pure _
  | .parallelOp _ rhe => expression h rhe
  | .number .. => h.pure _
  | .busCall .. => h.panic
  | .anonymousComp .. => h.panic
  | .tuple .. => h.panic

theorem elements (h : RelatedExpressions R ops ops') : ∀ (values : List Expression) (type : VCT),
    R (inferElements ops type values) (inferElements ops' type values)
  | [], type => h.pure (some type)
  | value :: values, type =>
    h.withType (expression h value) fun auxType =>
      h.bind (h.unwrap (maxDimensions type auxType)) fun type => elements h values type

theorem args_ (h : RelatedExpressions R ops ops') : ∀ args : List Expression,
    R (inferArgs ops args) (inferArgs ops' args)
  | [] => h.pure (some [])
  | arg :: args => h.withType (expression h arg) fun _ => h.withType (args_ h args) fun _ => h.pure _

end

end RelatedExpressions

namespace RelatedSearches

theorem skip (h : RelatedSearches R S ops ops') {α : Type} (a : α) : S (Pure.pure a : m α) (Pure.pure a) :=
  h.ofExpression (h.pure a)

variable (concreteDimensions : Meta → VCT)

theorem initializations (h : RelatedSearches R S ops ops') : ∀ stmts : List Statement,
    S (inferInitializations ops concreteDimensions stmts) (inferInitializations ops' concreteDimensions stmts)
  | [] => h.skip ()
  | .declaration info _ name _ _ _ :: stmts =>
    h.sequence (h.declare name (concreteDimensions info)) fun _ => initializations h stmts
  | .ifThenElse .. :: stmts => initializations h stmts
  | .whileStmt .. :: stmts => initializations h stmts
  | .returnStmt .. :: stmts => initializations h stmts
  | .initializationBlock .. :: stmts => initializations h stmts
  | .substitution .. :: stmts => initializations h stmts
  | .multSubstitution .. :: stmts => initializations h stmts
  | .underscoreSubstitution .. :: stmts => initializations h stmts
  | .constraintEquality .. :: stmts => initializations h stmts
  | .logCall .. :: stmts => initializations h stmts
  | .block .. :: stmts => initializations h stmts
  | .assert .. :: stmts => initializations h stmts

mutual

theorem statement (h : RelatedSearches R S ops ops') : ∀ stmt : Statement,
    S (inferTypeStmt ops concreteDimensions stmt) (inferTypeStmt ops' concreteDimensions stmt)
  | .returnStmt _ value => h.ofExpression (h.expression value)
  | .block _ stmts => h.block (statements h stmts none)
  | .initializationBlock _ _ initializations =>
    h.sequence (h.initializations concreteDimensions initializations) fun _ => h.skip none
  | .ifThenElse _ _ ifCase none => statement h ifCase
  | .ifThenElse _ _ ifCase (some elseCase) =>
    h.sequence (statement h ifCase) fun _ => h.sequence (statement h elseCase) fun _ => h.skip _
  | .whileStmt _ _ stmt => statement h stmt
  | .declaration info _ name _ _ _ => h.sequence (h.declare name (concreteDimensions info)) fun _ => h.skip none
  | .substitution .. => h.skip none
  | .constraintEquality .. => h.skip none
  | .logCall .. => h.skip none
  | .assert .. => h.skip none
  | .multSubstitution .. => h.ofExpression h.panic
  | .underscoreSubstitution .. => h.ofExpression h.panic

theorem statements (h : RelatedSearches R S ops ops') : ∀ (stmts : List Statement) (returns : Option VCT),
    S (inferTypeStmts ops concreteDimensions returns stmts) (inferTypeStmts ops' concreteDimensions returns stmts)
  | [], returns => h.skip returns
  | stmt :: stmts, returns => h.sequence (statement h stmt) fun newValue => statements h stmts (joinTypes returns newValue)

end

end RelatedSearches

/-! ## The inference of return types -/

variable {α β : Type} {functions : HashMap String GenericFunction} {concreteDimensions : Meta → VCT}

/-! ## Steps -/

theorem Infer.bind_ok {x : Infer α} {f : α → Infer β} {s s' : SearchInfo × List SearchEvent} {a : α}
    (h : x s = (.ok a, s')) : (x >>= f) s = f a s' := by
  show Infer.bind x f s = _
  unfold Infer.bind
  rw [h]

theorem Infer.bind_error {x : Infer α} {f : α → Infer β} {s s' : SearchInfo × List SearchEvent}
    {e : SearchFailure} (h : x s = (.error e, s')) : (x >>= f) s = (.error e, s') := by
  show Infer.bind x f s = _
  unfold Infer.bind
  rw [h]

/-! ## The search ends -/

/-- With at most `n` functions that are not open the search does not run out of fuel, and leaves no other function
closed. -/
def Ends (names : Finset String) (n : ℕ) (x : Infer α) : Prop :=
  ∀ s : SearchInfo × List SearchEvent, (names \ s.1.openCalls).card ≤ n →
    (x s).1 ≠ .error .outOfFuel ∧ ∀ a, (x s).1 = .ok a → s.1.openCalls ⊆ (x s).2.1.openCalls

variable {names : Finset String} {n : ℕ}

theorem card_sdiff_le {s t : Finset String} (h : s ⊆ t) (hn : (names \ s).card ≤ n) : (names \ t).card ≤ n :=
  Nat.le_trans (Finset.card_le_card (Finset.sdiff_subset_sdiff (Finset.Subset.refl _) h)) hn

/-- A call opens a function that was not open. -/
theorem card_sdiff_insert_le {id : String} {f : GenericFunction} (hlookup : functions.lookup id = some f)
    (hopen : id ∉ openCalls) (hcard : (functions.keys.toFinset \ openCalls).card ≤ n) :
    ∃ k, n = k + 1 ∧ (functions.keys.toFinset \ insert id openCalls).card ≤ k := by
  have hkey : id ∈ functions.keys.toFinset \ openCalls :=
    Finset.mem_sdiff.mpr ⟨List.mem_toFinset.mpr (AList.mem_keys.mp
      (AList.mem_iff_exists_lookup.mpr ⟨f, hlookup⟩)), hopen⟩
  obtain ⟨k, rfl⟩ := Nat.exists_eq_add_of_le' (Nat.le_trans (Finset.card_pos.mpr ⟨id, hkey⟩) hcard)
  refine ⟨k, rfl, ?_⟩
  rw [Finset.sdiff_insert, Finset.card_erase_of_mem hkey]
  omega

theorem Ends.bind {x : Infer α} {f : α → Infer β} (hx : Ends names n x) (hf : ∀ a, Ends names n (f a)) :
    Ends names n (x >>= f) := by
  intro s hs
  obtain ⟨hfuel, hopen⟩ := hx s hs
  rcases h : x s with ⟨r, s'⟩
  rw [h] at hfuel hopen
  cases r with
  | error e =>
    rw [Infer.bind_error h]
    exact ⟨fun he => hfuel (by cases he; rfl), nofun⟩
  | ok a =>
    have hsub := hopen a rfl
    obtain ⟨hfuel', hopen'⟩ := hf a s' (card_sdiff_le hsub hs)
    rw [Infer.bind_ok h]
    exact ⟨hfuel', fun b hb => Finset.Subset.trans hsub (hopen' b hb)⟩

theorem Ends.of_ok {x : Infer α} (h : ∀ s : SearchInfo × List SearchEvent,
    ∃ a s', x s = (.ok a, s') ∧ s'.1.openCalls = s.1.openCalls) : Ends names n x := by
  intro s _
  obtain ⟨a, s', hx, hopen⟩ := h s
  rw [hx]
  refine ⟨nofun, fun b _ => ?_⟩
  rw [hopen]

theorem Ends.panic {x : Infer α} (h : ∀ s, (x s).1 = .error .panic) : Ends names n x := by
  intro s _
  rw [h s]
  exact ⟨nofun, nofun⟩

/-- A call opens another function. -/
theorem Ends.call {inferBody : Statement → Infer (Option VCT)}
    (hbody : ∀ {k}, n = k + 1 → ∀ stmt, Ends functions.keys.toFinset k (inferBody stmt)) (id : String)
    {args : Infer (Option (List VCT))} (hargs : Ends functions.keys.toFinset n args) :
    Ends functions.keys.toFinset n (inferTypeCall functions inferBody id args) := by
  rintro ⟨before, log⟩ hn
  unfold inferTypeCall
  dsimp only at hn ⊢
  by_cases hid : id ∈ before.openCalls
  · rw [if_pos hid]
    exact ⟨nofun, fun a _ => Finset.Subset.refl _⟩
  rw [if_neg hid]
  cases hlookup : functions.lookup id with
  | none => exact ⟨nofun, nofun⟩
  | some f =>
    dsimp only
    obtain ⟨k, rfl, hcard⟩ := card_sdiff_insert_le hlookup hid hn
    obtain ⟨hfuel, hopen⟩ := hargs
      (SearchInfo.addVariableBlock { before with openCalls := insert id before.openCalls }, log)
      (Nat.le_succ_of_le hcard)
    generalize args _ = result at hfuel hopen
    obtain ⟨r, info, log'⟩ := result
    cases r with
    | error e => exact ⟨fun he => hfuel (by cases he; rfl), nofun⟩
    | ok o =>
      have hinfo : insert id before.openCalls ⊆ info.openCalls := hopen o rfl
      have hbefore := Finset.Subset.trans (Finset.subset_insert id before.openCalls) hinfo
      cases o with
      | none => exact ⟨nofun, fun a _ => hbefore⟩
      | some argTypes =>
        dsimp only
        cases addParams info.environment f.paramsNames argTypes with
        | none => exact ⟨nofun, nofun⟩
        | some environment =>
          dsimp only
          obtain ⟨hfuel', hopen'⟩ := hbody rfl f.body ({ info with environment := environment }, log')
            (card_sdiff_le hinfo hcard)
          generalize inferBody f.body _ = result at hfuel' hopen'
          obtain ⟨r, info', log''⟩ := result
          cases r with
          | error e => exact ⟨fun he => hfuel' (by cases he; rfl), nofun⟩
          | ok inferred =>
            refine ⟨nofun, fun a _ => ?_⟩
            have hsub : before.openCalls ⊆ info'.openCalls := Finset.Subset.trans hbefore (hopen' inferred rfl)
            exact fun name hname => Finset.mem_erase.mpr ⟨fun heq => hid (heq ▸ hname), hsub hname⟩

theorem ends_related {inferBody : Statement → Infer (Option VCT)}
    (hbody : ∀ {k}, n = k + 1 → ∀ stmt, Ends functions.keys.toFinset k (inferBody stmt)) :
    RelatedSearches (fun {α} (x _ : Infer α) => Ends functions.keys.toFinset n x)
      (fun {α} (x _ : Infer α) => Ends functions.keys.toFinset n x)
      (codeSearch functions inferBody) (codeSearch functions inferBody) where
  pure a := .of_ok fun s => ⟨a, s, rfl, rfl⟩
  bind hx hf := hx.bind hf
  lookup name := by
    rintro ⟨info, log⟩ hn
    show (Infer.lookup name (info, log)).1 ≠ _ ∧ _
    unfold codeSearch Infer.lookup
    dsimp only
    cases info.environment.getVariable name with
    | none => exact ⟨nofun, nofun⟩
    | some type => exact ⟨nofun, fun a _ => Finset.Subset.refl _⟩
  call id := fun hx => .call hbody id hx
  panic := .panic fun _ => rfl
  ofExpression hx := hx
  sequence hx hf := hx.bind hf
  declare name type := .of_ok fun s => ⟨_, _, rfl, rfl⟩
  block hx := Ends.bind (.of_ok fun s => ⟨_, _, rfl, rfl⟩) fun _ =>
    hx.bind fun result => Ends.bind (.of_ok fun s => ⟨_, _, rfl, rfl⟩) fun _ => .of_ok fun s => ⟨_, s, rfl, rfl⟩

theorem inferBody_ends : ∀ (fuel : ℕ) (stmt : Statement),
    Ends functions.keys.toFinset fuel (inferBody functions concreteDimensions (fuel + 1) stmt)
  | 0, stmt => (ends_related fun h => by cases h).statement concreteDimensions stmt
  | fuel + 1, stmt =>
    (ends_related fun h => by
      cases h
      exact inferBody_ends fuel).statement concreteDimensions stmt

/-- The search ends, with a panic or with an answer. -/
theorem inferFunctionResult_ends (id : String) (params : List Param) :
    (inferFunctionResult functions concreteDimensions id params).1 ≠ .error .outOfFuel := by
  unfold inferFunctionResult
  cases functions.lookup id with
  | none => exact fun h => by cases h
  | some f =>
    have hcard : (functions.keys.toFinset \ (SearchInfo.ofParams id params).openCalls).card ≤ functions.len := by
      refine Nat.le_trans (Finset.card_le_card Finset.sdiff_subset) ?_
      rw [AList.len_eq_length_keys]
      exact List.toFinset_card_le _
    exact (inferBody_ends functions.len f.body (SearchInfo.ofParams id params, []) hcard).1

/-! ## What the search does when every argument has a type -/

/-- The call left the state as another one than it found. -/
def SearchEvent.Leaks : SearchEvent → Prop
  | .lookup .. => False
  | .call _ before after => after ≠ before

/-- The event is the intended one, and a call leaves the state as it was. -/
def Agrees : IntendedEvent → SearchEvent → Prop
  | .lookup name type, .lookup name' type' => name = name' ∧ type = type'
  | .call id, .call id' before after => id = id' ∧ after = before
  | _, _ => False

theorem AllResolved.append {log log' : List IntendedEvent} (h : AllResolved log) (h' : AllResolved log') :
    AllResolved (log ++ log') :=
  fun id hid => (List.mem_append.mp hid).elim (h id) (h' id)

/-- The run of the search that is meant by an intended one: it ends in the intended state, with the blocks of the
callers below, unless it leaks. -/
structure Follows (x : Infer α) (openCalls : Finset String) (inner outer : Variables VCT) (log : List SearchEvent)
    (a : α) (inner' : Variables VCT) (ievents : List IntendedEvent) : Prop where
  length : inner'.length = inner.length
  resolved : AllResolved ievents → ∃ events, List.Forall₂ Agrees ievents events ∧
    x (⟨inner ++ outer, openCalls⟩, log) = (.ok a, ⟨inner' ++ outer, openCalls⟩, log ++ events)
  unresolved : ¬ AllResolved ievents → ∃ e ∈ (x (⟨inner ++ outer, openCalls⟩, log)).2.2, e.Leaks

/-- The search only adds events, and follows the intended one. -/
structure Simulates (x : Infer α) (y : Intended α) : Prop where
  appends : ∀ s, s.2 <+: (x s).2.2
  follows : ∀ {openCalls : Finset String} {inner outer : Variables VCT} {log : List SearchEvent}
    {ilog ilog' : List IntendedEvent} {a : α} {inner' : Variables VCT},
    inner ≠ [] → y openCalls inner ilog = .ok (a, inner', ilog') →
      ∃ ievents, ilog' = ilog ++ ievents ∧ Follows x openCalls inner outer log a inner' ievents

/-- What the search does below the blocks `outer`, from the events `log`. -/
theorem Simulates.run {x : Infer α} {y : Intended α} (hx : Simulates x y) (outer : Variables VCT)
    (log : List SearchEvent) {inner inner' : Variables VCT} {ilog ilog' : List IntendedEvent} {a : α}
    (hinner : inner ≠ []) (hy : y openCalls inner ilog = .ok (a, inner', ilog')) :
    ∃ ievents, ilog' = ilog ++ ievents ∧ Follows x openCalls inner outer log a inner' ievents :=
  hx.follows hinner hy

theorem allResolved_of_agrees {ievents : List IntendedEvent} {events : List SearchEvent}
    (h : List.Forall₂ Agrees ievents events) : AllResolved ievents := by
  induction h with
  | nil => exact fun id hid => by cases hid
  | cons he _ ih =>
    intro id hid
    cases hid with
    | head => exact he.elim
    | tail _ hid => exact ih id hid

theorem Follows.of_agrees {x : Infer α} {inner outer inner' : Variables VCT} {log events : List SearchEvent} {a : α}
    {ievents : List IntendedEvent} (hlength : inner'.length = inner.length)
    (hx : x (⟨inner ++ outer, openCalls⟩, log) = (.ok a, ⟨inner' ++ outer, openCalls⟩, log ++ events))
    (h : List.Forall₂ Agrees ievents events) : Follows x openCalls inner outer log a inner' ievents where
  length := hlength
  resolved _ := ⟨events, h, hx⟩
  unresolved hnot := absurd (allResolved_of_agrees h) hnot

theorem Simulates.pure (a : α) : Simulates (Pure.pure a) (Pure.pure a) where
  appends s := List.prefix_rfl
  follows := by
    intro openCalls inner outer log ilog ilog' a' inner' hinner hy
    cases hy
    exact ⟨[], (List.append_nil ilog).symm, .of_agrees rfl (by rw [List.append_nil]; rfl) .nil⟩

theorem Infer.bind_appends {x : Infer α} {f : α → Infer β} (hx : ∀ s, s.2 <+: (x s).2.2)
    (hf : ∀ a s, s.2 <+: (f a s).2.2) (s : SearchInfo × List SearchEvent) :
    (x s).2.2 <+: ((x >>= f) s).2.2 := by
  rcases h : x s with ⟨r, s'⟩
  cases r with
  | error e =>
    rw [Infer.bind_error h]
  | ok a =>
    rw [Infer.bind_ok h]
    exact hf a s'

theorem Intended.bind_eq_ok {y : Intended α} {g : α → Intended β} {inner inner' : Variables VCT}
    {ilog ilog' : List IntendedEvent} {b : β} (h : (y >>= g) openCalls inner ilog = .ok (b, inner', ilog')) :
    ∃ a inner₁ ilog₁, y openCalls inner ilog = .ok (a, inner₁, ilog₁) ∧
      g a openCalls inner₁ ilog₁ = .ok (b, inner', ilog') := by
  simp only [Bind.bind] at h
  rcases hy : y openCalls inner ilog with e | ⟨a, inner₁, ilog₁⟩
  · rw [hy] at h
    cases h
  · rw [hy] at h
    exact ⟨a, inner₁, ilog₁, rfl, h⟩

theorem Simulates.bind {x : Infer α} {y : Intended α} {f : α → Infer β} {g : α → Intended β}
    (hx : Simulates x y) (hf : ∀ a, Simulates (f a) (g a)) : Simulates (x >>= f) (y >>= g) where
  appends s := (hx.appends s).trans (Infer.bind_appends hx.appends (fun a => (hf a).appends) s)
  follows := by
    intro openCalls inner outer log ilog ilog' b inner' hinner hy
    obtain ⟨a, inner₁, ilog₁, hy, hg⟩ := Intended.bind_eq_ok hy
    obtain ⟨ievents, rfl, hfollows⟩ := hx.run outer log hinner hy
    have hinner₁ : inner₁ ≠ [] := by
      intro hnil
      have hlength := hfollows.length
      rw [hnil] at hlength
      exact hinner (List.length_eq_zero_iff.mp hlength.symm)
    by_cases hresolved : AllResolved ievents
    · obtain ⟨events, hagrees, hx⟩ := hfollows.resolved hresolved
      obtain ⟨ievents', rfl, hfollows'⟩ := (hf a).run outer (log ++ events) hinner₁ hg
      refine ⟨ievents ++ ievents', List.append_assoc .., hfollows'.length.trans hfollows.length, fun hall => ?_,
        fun hnot => ?_⟩
      · obtain ⟨events', hagrees', hf'⟩ := hfollows'.resolved fun id hid => hall id (List.mem_append_right _ hid)
        refine ⟨events ++ events', List.rel_append hagrees hagrees', ?_⟩
        rw [Infer.bind_ok hx, hf', List.append_assoc]
      · rw [Infer.bind_ok hx]
        exact hfollows'.unresolved fun hall => hnot (hresolved.append hall)
    · obtain ⟨ievents', rfl, hfollows'⟩ := (hf a).run outer log hinner₁ hg
      refine ⟨ievents ++ ievents', List.append_assoc .., hfollows'.length.trans hfollows.length, fun hall => ?_,
        fun _ => ?_⟩
      · exact absurd (fun id hid => hall id (List.mem_append_left _ hid)) hresolved
      · obtain ⟨e, he, hleaks⟩ := hfollows.unresolved hresolved
        exact ⟨e, (Infer.bind_appends hx.appends (fun a => (hf a).appends) _).subset he, hleaks⟩

theorem getVariable_append {inner : Variables VCT} {name : String} {type : VCT}
    (h : inner.getVariable name = some type) (outer : Variables VCT) :
    Variables.getVariable (inner ++ outer) name = some type := by
  unfold Variables.getVariable at h ⊢
  rw [List.findSome?_append, h]
  rfl

theorem addVariable_append {inner : Variables VCT} (hinner : inner ≠ []) (name : String) (type : VCT)
    (outer : Variables VCT) :
    Variables.addVariable (inner ++ outer) name type = inner.addVariable name type ++ outer := by
  cases inner with
  | nil => exact absurd rfl hinner
  | cons block inner => rfl

theorem addVariable_length (inner : Variables VCT) (name : String) (type : VCT) :
    (inner.addVariable name type).length = inner.length := by
  cases inner with
  | nil => rfl
  | cons block inner => rfl

theorem addVariable_ne_nil {inner : Variables VCT} (hinner : inner ≠ []) (name : String) (type : VCT) :
    inner.addVariable name type ≠ [] := by
  cases inner with
  | nil => exact absurd rfl hinner
  | cons block inner => exact List.cons_ne_nil _ _

theorem addParams_append (names : List String) (types : List VCT) {blocks : Variables VCT} (hblocks : blocks ≠ [])
    (outer : Variables VCT) :
    addParams (blocks ++ outer) names types = (addParams blocks names types).map (· ++ outer) := by
  induction types generalizing names blocks with
  | nil =>
    unfold addParams
    rfl
  | cons type types ih =>
    cases names with
    | nil => rfl
    | cons name names =>
      unfold addParams
      rw [addVariable_append hblocks]
      exact ih names (addVariable_ne_nil hblocks name type)

theorem addParams_length (names : List String) {types : List VCT} {blocks blocks' : Variables VCT}
    (h : addParams blocks names types = some blocks') : blocks'.length = blocks.length := by
  induction types generalizing names blocks with
  | nil =>
    unfold addParams at h
    cases h
    rfl
  | cons type types ih =>
    cases names with
    | nil => cases h
    | cons name names => exact (ih names h).trans (addVariable_length blocks name type)

theorem Simulates.lookup (name : String) : Simulates (Infer.lookup name) (Intended.lookup name) where
  appends s := by
    unfold Infer.lookup
    cases s.1.environment.getVariable name with
    | none => exact List.prefix_rfl
    | some type => exact List.prefix_append _ _
  follows := by
    intro openCalls inner outer log ilog ilog' a inner' hinner hy
    unfold Intended.lookup at hy
    cases hget : inner.getVariable name with
    | none =>
      rw [hget] at hy
      cases hy
    | some type =>
      rw [hget] at hy
      cases hy
      have hrun : Infer.lookup name (⟨inner ++ outer, openCalls⟩, log) =
          (.ok a, ⟨inner ++ outer, openCalls⟩, log ++ [.lookup name a]) := by
        unfold Infer.lookup
        dsimp only
        rw [getVariable_append hget outer]
      exact ⟨_, rfl, .of_agrees rfl hrun (.cons ⟨rfl, rfl⟩ .nil)⟩

theorem Simulates.declare (name : String) (type : VCT) :
    Simulates (Infer.modify fun info => info.addVariable name type)
      (fun _ env log => .ok ((), env.addVariable name type, log)) where
  appends s := List.prefix_rfl
  follows := by
    intro openCalls inner outer log ilog ilog' a inner' hinner hy
    cases hy
    refine ⟨[], (List.append_nil ilog).symm, .of_agrees (addVariable_length inner name type) ?_ .nil⟩
    unfold Infer.modify SearchInfo.addVariable
    dsimp only
    rw [addVariable_append hinner, List.append_nil]

/-- The removal of the block, after the search inside it. -/
def leaveBlock (a : α) : Infer α := fun s => (.ok a, s.1.removeVariableBlock, s.2)

theorem block_eq {inferBody : Statement → Infer (Option VCT)} (x : Infer α) (s : SearchInfo × List SearchEvent) :
    (codeSearch functions inferBody).block x s = (x >>= leaveBlock) (s.1.addVariableBlock, s.2) :=
  rfl

theorem Simulates.block {inferBody : Statement → Infer (Option VCT)} {x : Infer α} {y : Intended α}
    (hx : Simulates x y) : Simulates ((codeSearch functions inferBody).block x) (Intended.block y) where
  appends s := by
    rw [block_eq]
    exact (hx.appends (s.1.addVariableBlock, s.2)).trans
      (Infer.bind_appends hx.appends (fun _ _ => List.prefix_rfl) _)
  follows := by
    intro openCalls inner outer log ilog ilog' a inner' hinner hy
    unfold Intended.block at hy
    rcases h : y openCalls inner.addVariableBlock ilog with e | ⟨a', blocks, ilog₁⟩
    · rw [h] at hy
      cases hy
    · rw [h] at hy
      cases hy
      obtain ⟨ievents, rfl, hfollows⟩ := hx.run outer log (List.cons_ne_nil _ _) h
      obtain ⟨block, blocks, rfl⟩ := List.exists_cons_of_length_eq_add_one hfollows.length
      refine ⟨ievents, rfl, Nat.succ.inj hfollows.length, fun hall => ?_, fun hnot => ?_⟩
      · obtain ⟨events, hagrees, hx⟩ := hfollows.resolved hall
        exact ⟨events, hagrees, (block_eq x _).trans (Infer.bind_ok hx)⟩
      · obtain ⟨e, he, hleaks⟩ := hfollows.unresolved hnot
        rw [block_eq]
        exact ⟨e, (Infer.bind_appends hx.appends (fun _ _ => List.prefix_rfl) _).subset he, hleaks⟩

/-- The end of a call, after its body. -/
def closeCall (id : String) (before : SearchInfo) (inferred : Option VCT) : Infer (Option VCT) := fun (info, log) =>
  let closed := { info.removeVariableBlock with openCalls := info.openCalls.erase id }
  (.ok inferred, closed, log ++ [.call id before closed])

/-- What a call does after its arguments. -/
def callBody (inferBody : Statement → Infer (Option VCT)) (id : String) (f : GenericFunction) (before : SearchInfo) :
    Option (List VCT) → Infer (Option VCT)
  | none => fun (info, log) => (.ok none, info, log ++ [.call id before info])
  | some argTypes => fun (info, log) =>
    match addParams info.environment f.paramsNames argTypes with
    | none => (.error .panic, info, log)
    | some environment => (inferBody f.body >>= closeCall id before) ({ info with environment := environment }, log)

theorem inferTypeCall_of_mem {inferBody : Statement → Infer (Option VCT)} {id : String}
    (args : Infer (Option (List VCT))) {before : SearchInfo} (log : List SearchEvent) (hid : id ∈ before.openCalls) :
    inferTypeCall functions inferBody id args (before, log) = (.ok none, before, log ++ [.call id before before]) := by
  unfold inferTypeCall
  exact if_pos hid

theorem inferTypeCall_eq {inferBody : Statement → Infer (Option VCT)} {id : String} {f : GenericFunction}
    (args : Infer (Option (List VCT))) {before : SearchInfo} (log : List SearchEvent) (hid : id ∉ before.openCalls)
    (hlookup : functions.lookup id = some f) :
    inferTypeCall functions inferBody id args (before, log) =
      (args >>= callBody inferBody id f before)
        (⟨before.environment.addVariableBlock, insert id before.openCalls⟩, log) := by
  unfold inferTypeCall
  dsimp only
  rw [if_neg hid, hlookup]
  dsimp only [SearchInfo.addVariableBlock]
  rcases h : args (⟨before.environment.addVariableBlock, insert id before.openCalls⟩, log) with ⟨_ | o, info, log'⟩
  · rw [Infer.bind_error h]
  · rw [Infer.bind_ok h]
    cases o with
    | none => rfl
    | some argTypes =>
      unfold callBody
      dsimp only
      cases addParams info.environment f.paramsNames argTypes with
      | none => rfl
      | some environment =>
        dsimp only
        rcases h' : inferBody f.body ({ info with environment := environment }, log') with ⟨_ | inferred, info', log''⟩
        · rw [Infer.bind_error h']
        · rw [Infer.bind_ok h']
          rfl

theorem callBody_appends {inferBody : Statement → Infer (Option VCT)}
    (hbody : ∀ stmt s, s.2 <+: (inferBody stmt s).2.2) (id : String) (f : GenericFunction) (before : SearchInfo)
    (argTypes : Option (List VCT)) (s : SearchInfo × List SearchEvent) :
    s.2 <+: (callBody inferBody id f before argTypes s).2.2 := by
  obtain ⟨info, log⟩ := s
  cases argTypes with
  | none => exact List.prefix_append _ _
  | some argTypes =>
    unfold callBody
    dsimp only
    cases addParams info.environment f.paramsNames argTypes with
    | none => exact List.prefix_rfl
    | some environment =>
      exact (hbody f.body _).trans
        (Infer.bind_appends (hbody f.body) (fun _ _ => List.prefix_append _ _) ({ info with environment := environment }, log))

theorem inferTypeCall_appends {inferBody : Statement → Infer (Option VCT)}
    (hbody : ∀ stmt s, s.2 <+: (inferBody stmt s).2.2) (id : String) {args : Infer (Option (List VCT))}
    (hargs : ∀ s, s.2 <+: (args s).2.2) (s : SearchInfo × List SearchEvent) :
    s.2 <+: (inferTypeCall functions inferBody id args s).2.2 := by
  obtain ⟨before, log⟩ := s
  by_cases hid : id ∈ before.openCalls
  · rw [inferTypeCall_of_mem args log hid]
    exact List.prefix_append _ _
  · cases hlookup : functions.lookup id with
    | none =>
      unfold inferTypeCall
      dsimp only
      rw [if_neg hid, hlookup]
    | some f =>
      rw [inferTypeCall_eq args log hid hlookup]
      refine List.IsPrefix.trans ?_ (Infer.bind_appends hargs (callBody_appends hbody id f before) _)
      exact hargs (⟨before.environment.addVariableBlock, insert id before.openCalls⟩, log)

/-- The search leaves the variables as they are. -/
def KeepsScope (y : Intended α) : Prop :=
  ∀ ⦃openCalls : Finset String⦄ ⦃env env' : Variables VCT⦄ ⦃log log' : List IntendedEvent⦄ ⦃a : α⦄,
    y openCalls env log = .ok (a, env', log') → env' = env

section

variable {inferBody : Statement → Infer (Option VCT)} {intendedBody : Statement → Intended (Option VCT)}
  {id : String} {f : GenericFunction} {openCalls : Finset String} {inner outer : Variables VCT}
  {ilog ilog' : List IntendedEvent} {argTypes : List VCT} {params params' : Variables VCT} {inferred : Option VCT}

/-- After the arguments, the call follows the intended one. -/
theorem callBody_follows (hbody : ∀ stmt, Simulates (inferBody stmt) (intendedBody stmt)) (inner outer : Variables VCT)
    (hid : id ∉ openCalls) (log : List SearchEvent) (hparams : addParams [∅] f.paramsNames argTypes = some params)
    (hy : intendedBody f.body (insert id openCalls) params ilog = .ok (inferred, params', ilog')) :
    ∃ ievents, ilog' = ilog ++ ievents ∧
      (AllResolved ievents → ∃ events, List.Forall₂ Agrees (ievents ++ [.call id]) events ∧
        callBody inferBody id f ⟨inner ++ outer, openCalls⟩ (some argTypes)
          (⟨inner.addVariableBlock ++ outer, insert id openCalls⟩, log) =
            (.ok inferred, ⟨inner ++ outer, openCalls⟩, log ++ events)) ∧
      (¬ AllResolved ievents → ∃ e ∈ (callBody inferBody id f ⟨inner ++ outer, openCalls⟩ (some argTypes)
        (⟨inner.addVariableBlock ++ outer, insert id openCalls⟩, log)).2.2, e.Leaks) := by
  have hlength : params.length = 1 := addParams_length f.paramsNames hparams
  obtain ⟨ievents, rfl, hfollows⟩ := (hbody f.body).run (inner ++ outer) log
    (List.ne_nil_of_length_pos (Nat.lt_of_lt_of_eq Nat.one_pos hlength.symm)) hy
  have hall : addParams (inner.addVariableBlock ++ outer) f.paramsNames argTypes =
      some (params ++ (inner ++ outer)) := by
    have happend := addParams_append f.paramsNames argTypes (List.cons_ne_nil (∅ : HashMap String VCT) [])
      (inner ++ outer)
    rw [hparams] at happend
    exact happend
  have hcall : callBody inferBody id f ⟨inner ++ outer, openCalls⟩ (some argTypes)
      (⟨inner.addVariableBlock ++ outer, insert id openCalls⟩, log) =
        (inferBody f.body >>= closeCall id ⟨inner ++ outer, openCalls⟩)
          (⟨params ++ (inner ++ outer), insert id openCalls⟩, log) := by
    unfold callBody
    dsimp only
    rw [hall]
  rw [hcall]
  obtain ⟨block, rfl⟩ := List.length_eq_one_iff.mp (hfollows.length.trans hlength)
  refine ⟨ievents, rfl, fun hresolved => ?_, fun hnot => ?_⟩
  · obtain ⟨events, hagrees, hx⟩ := hfollows.resolved hresolved
    refine ⟨events ++ [.call id ⟨inner ++ outer, openCalls⟩ ⟨inner ++ outer, openCalls⟩],
      List.rel_append hagrees (.cons (by exact ⟨rfl, rfl⟩) .nil), ?_⟩
    rw [Infer.bind_ok hx, ← List.append_assoc log events]
    unfold closeCall
    dsimp only
    rw [Finset.erase_insert hid]
    rfl
  · obtain ⟨e, he, hleaks⟩ := hfollows.unresolved hnot
    exact ⟨e, (Infer.bind_appends (hbody f.body).appends (fun _ _ => List.prefix_append _ _) _).subset he, hleaks⟩

variable {x : Infer (Option (List VCT))} {y : Intended (Option (List VCT))} {log : List SearchEvent}
  {ievents : List IntendedEvent}

/-- A call with an argument without a type leaks. -/
theorem call_leaks (hbody : ∀ stmt, Simulates (inferBody stmt) (intendedBody stmt)) (hid : id ∉ openCalls)
    (hx : Simulates x y)
    (hfollows : Follows x (insert id openCalls) inner.addVariableBlock outer log none inner.addVariableBlock ievents) :
    ∃ e ∈ ((x >>= callBody inferBody id f ⟨inner ++ outer, openCalls⟩)
      (⟨inner.addVariableBlock ++ outer, insert id openCalls⟩, log)).2.2, e.Leaks := by
  by_cases hresolved : AllResolved ievents
  · obtain ⟨events, _, hrun⟩ := hfollows.resolved hresolved
    rw [Infer.bind_ok hrun]
    refine ⟨_, List.mem_append_right _ (List.mem_singleton.mpr rfl), fun hsame => ?_⟩
    have hopen : insert id openCalls = openCalls := congrArg SearchInfo.openCalls hsame
    exact hid (hopen ▸ Finset.mem_insert_self id openCalls)
  · obtain ⟨e, he, hleaks⟩ := hfollows.unresolved hresolved
    exact ⟨e, (Infer.bind_appends hx.appends (callBody_appends (fun stmt => (hbody stmt).appends) id f _) _).subset he,
      hleaks⟩

/-- A call whose arguments have types follows the intended one. -/
theorem call_follows (hbody : ∀ stmt, Simulates (inferBody stmt) (intendedBody stmt)) (hid : id ∉ openCalls)
    (hx : Simulates x y) (hparams : addParams [∅] f.paramsNames argTypes = some params)
    (hfollows : Follows x (insert id openCalls) inner.addVariableBlock outer log (some argTypes)
      inner.addVariableBlock ievents)
    (hy : intendedBody f.body (insert id openCalls) params ilog = .ok (inferred, params', ilog'))
    (hcall : inferTypeCall functions inferBody id x (⟨inner ++ outer, openCalls⟩, log) =
      (x >>= callBody inferBody id f ⟨inner ++ outer, openCalls⟩)
        (⟨inner.addVariableBlock ++ outer, insert id openCalls⟩, log)) :
    ∃ ievents', ilog' = ilog ++ ievents' ∧
      Follows (inferTypeCall functions inferBody id x) openCalls inner outer log inferred inner
        (ievents ++ (ievents' ++ [.call id])) := by
  have hcallee := fun log => callBody_follows hbody inner outer hid log hparams hy
  obtain ⟨ievents', rfl, -⟩ := hcallee log
  refine ⟨ievents', rfl, rfl, fun hall => ?_, fun hnot => ?_⟩
  · have hresolved : AllResolved ievents := fun id hid => hall id (List.mem_append_left _ hid)
    obtain ⟨events, hagrees, hrun⟩ := hfollows.resolved hresolved
    obtain ⟨ievents'', heq, hbody', -⟩ := hcallee (log ++ events)
    obtain rfl := List.append_cancel_left heq
    obtain ⟨events', hagrees', hrun'⟩ := hbody' fun id hid =>
      hall id (List.mem_append_right _ (List.mem_append_left _ hid))
    refine ⟨events ++ events', List.rel_append hagrees hagrees', ?_⟩
    rw [hcall, Infer.bind_ok hrun, hrun', List.append_assoc]
  · rw [hcall]
    by_cases hresolved : AllResolved ievents
    · obtain ⟨events, -, hrun⟩ := hfollows.resolved hresolved
      obtain ⟨ievents'', heq, -, hleaks⟩ := hcallee (log ++ events)
      obtain rfl := List.append_cancel_left heq
      rw [Infer.bind_ok hrun]
      refine hleaks fun hall => hnot (hresolved.append (hall.append fun id' hid' => ?_))
      cases List.mem_singleton.mp hid'
    · obtain ⟨e, he, hleaks⟩ := hfollows.unresolved hresolved
      exact ⟨e, (Infer.bind_appends hx.appends
        (callBody_appends (fun stmt => (hbody stmt).appends) id f _) _).subset he, hleaks⟩

end

/-- What a successful call of a function that is not open does. -/
theorem Intended.call_eq_ok {intendedBody : Statement → Intended (Option VCT)} {id : String}
    {y : Intended (Option (List VCT))} {env env' : Variables VCT} {log log' : List IntendedEvent}
    {inferred : Option VCT} (hid : id ∉ openCalls)
    (h : Intended.call functions intendedBody id y openCalls env log = .ok (inferred, env', log')) :
    ∃ f o env₁ log₁, functions.lookup id = some f ∧
      y (insert id openCalls) env.addVariableBlock log = .ok (o, env₁, log₁) ∧ env' = env₁.removeVariableBlock ∧
      (o = none ∧ inferred = none ∧ log' = log₁ ++ [.unresolved id] ∨
        ∃ argTypes params params' log₂, o = some argTypes ∧
          addParams (env₁.take 1) f.paramsNames argTypes = some params ∧
          intendedBody f.body (insert id openCalls) params log₁ = .ok (inferred, params', log₂) ∧
          log' = log₂ ++ [.call id]) := by
  unfold Intended.call at h
  rw [if_neg hid] at h
  cases hlookup : functions.lookup id with
  | none =>
    rw [hlookup] at h
    cases h
  | some f =>
    rw [hlookup] at h
    dsimp only at h
    rcases hargs : y (insert id openCalls) env.addVariableBlock log with e | ⟨o, env₁, log₁⟩
    · rw [hargs] at h
      cases h
    rw [hargs] at h
    cases o with
    | none =>
      cases h
      exact ⟨f, none, env₁, log₁, rfl, rfl, rfl, .inl ⟨rfl, rfl, rfl⟩⟩
    | some argTypes =>
      dsimp only at h
      cases hparams : addParams (env₁.take 1) f.paramsNames argTypes with
      | none =>
        rw [hparams] at h
        cases h
      | some params =>
        rw [hparams] at h
        dsimp only at h
        rcases hcallee : intendedBody f.body (insert id openCalls) params log₁ with e | ⟨inferred, params', log₂⟩
        · rw [hcallee] at h
          cases h
        · rw [hcallee] at h
          cases h
          exact ⟨f, some argTypes, env₁, log₁, rfl, rfl, rfl,
            .inr ⟨argTypes, params, params', log₂, rfl, hparams, hcallee, rfl⟩⟩

theorem Simulates.call {inferBody : Statement → Infer (Option VCT)} {intendedBody : Statement → Intended (Option VCT)}
    (hbody : ∀ stmt, Simulates (inferBody stmt) (intendedBody stmt)) (id : String) {x : Infer (Option (List VCT))}
    {y : Intended (Option (List VCT))} (hx : Simulates x y) (hkeeps : KeepsScope y) :
    Simulates (inferTypeCall functions inferBody id x) (Intended.call functions intendedBody id y) where
  appends := inferTypeCall_appends (fun stmt => (hbody stmt).appends) id hx.appends
  follows := by
    intro openCalls inner outer log ilog ilog' a inner' hinner hy
    by_cases hid : id ∈ openCalls
    · unfold Intended.call at hy
      rw [if_pos hid] at hy
      cases hy
      exact ⟨_, rfl, .of_agrees rfl (inferTypeCall_of_mem x log hid) (.cons (by exact ⟨rfl, rfl⟩) .nil)⟩
    obtain ⟨f, o, env₁, log₁, hlookup, hargs, rfl, hcases⟩ := Intended.call_eq_ok hid hy
    have hcall : inferTypeCall functions inferBody id x (⟨inner ++ outer, openCalls⟩, log) =
        (x >>= callBody inferBody id f ⟨inner ++ outer, openCalls⟩)
          (⟨inner.addVariableBlock ++ outer, insert id openCalls⟩, log) :=
      inferTypeCall_eq x log hid hlookup
    obtain rfl := hkeeps hargs
    obtain ⟨ievents, rfl, hfollows⟩ := hx.run outer log (List.cons_ne_nil _ _) hargs
    obtain ⟨rfl, rfl, rfl⟩ | ⟨argTypes, params, params', log₂, rfl, hparams, hcallee, rfl⟩ := hcases
    · refine ⟨_, List.append_assoc .., rfl, fun hall => ?_, fun _ => ?_⟩
      · exact absurd (List.mem_append_right ievents (List.mem_singleton.mpr rfl)) (hall id)
      · rw [hcall]
        exact call_leaks hbody hid hx hfollows
    · obtain ⟨ievents', rfl, hcalled⟩ := call_follows hbody hid hx hparams hfollows hcallee hcall
      exact ⟨_, by rw [List.append_assoc, List.append_assoc], hcalled⟩

theorem Simulates.panic : Simulates (Infer.fail .panic : Infer α) (fun _ _ _ => .error .panic) where
  appends s := List.prefix_rfl
  follows := by
    intro openCalls inner outer log ilog ilog' a inner' hinner hy
    cases hy

/-! ## Expressions leave the variables as they are -/

theorem KeepsScope.bind {y : Intended α} {g : α → Intended β} (hy : KeepsScope y) (hg : ∀ a, KeepsScope (g a)) :
    KeepsScope (y >>= g) := by
  intro openCalls env env' log log' b h
  obtain ⟨a, env₁, log₁, h₁, h₂⟩ := Intended.bind_eq_ok h
  exact (hg a h₂).trans (hy h₁)

theorem KeepsScope.lookup (name : String) : KeepsScope (Intended.lookup name) := by
  intro openCalls env env' log log' type h
  unfold Intended.lookup at h
  cases hget : env.getVariable name with
  | none =>
    rw [hget] at h
    cases h
  | some type =>
    rw [hget] at h
    cases h
    rfl

theorem KeepsScope.call (intendedBody : Statement → Intended (Option VCT)) (id : String)
    {y : Intended (Option (List VCT))} (hy : KeepsScope y) :
    KeepsScope (Intended.call functions intendedBody id y) := by
  intro openCalls env env' log log' inferred h
  by_cases hid : id ∈ openCalls
  · unfold Intended.call at h
    rw [if_pos hid] at h
    cases h
    rfl
  · obtain ⟨_, _, env₁, _, -, hargs, rfl, -⟩ := Intended.call_eq_ok hid h
    rw [hy hargs]
    rfl

theorem simulates_related {inferBody : Statement → Infer (Option VCT)}
    {intendedBody : Statement → Intended (Option VCT)}
    (hbody : ∀ stmt, Simulates (inferBody stmt) (intendedBody stmt)) :
    RelatedSearches (fun {α} (x : Infer α) (y : Intended α) => Simulates x y ∧ KeepsScope y) Simulates
      (codeSearch functions inferBody) (Intended.search functions intendedBody) where
  pure a := ⟨.pure a, fun _ _ _ _ _ _ h => by
    cases h
    rfl⟩
  bind hx hf := ⟨hx.1.bind fun a => (hf a).1, hx.2.bind fun a => (hf a).2⟩
  lookup name := ⟨.lookup name, .lookup name⟩
  call id := fun hx => ⟨.call hbody id hx.1 hx.2, .call _ id hx.2⟩
  panic := ⟨.panic, fun _ _ _ _ _ _ h => by cases h⟩
  ofExpression hx := hx.1
  sequence hx hf := hx.bind hf
  declare name type := .declare name type
  block hx := hx.block

theorem inferBody_simulates : ∀ (fuel : ℕ) (stmt : Statement),
    Simulates (inferBody functions concreteDimensions fuel stmt)
      (Intended.inferBody functions concreteDimensions fuel stmt)
  | 0, _ => {
      appends := fun _ => List.prefix_rfl
      follows := fun _ h => by cases h }
  | fuel + 1, stmt => (simulates_related (inferBody_simulates fuel)).statement concreteDimensions stmt

end Circom.Hir
