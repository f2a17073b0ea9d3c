import Circom.Hir.Proofs.TypeInference

/-!
# Return types

Every function has a type if some return statement of it does not need a recursive call. The search finds it, and
leaves nothing behind, if and only if every argument that it meets has a type.
-/

namespace Circom.Hir

open Circom.Ast
open Circom.Lib (HashMap)
open Circom.ProgramStructure (Variables)

variable {α β : Type} {functions : HashMap String GenericFunction} {concreteDimensions : Meta → VCT}
variable {y : Intended (Option (List VCT))} {intendedBody : Statement → Intended (Option VCT)} {id : String}
variable {k : ℕ}

/-! ## The intended search ends -/

/-- With at most `n` functions that are not open the intended search does not run out of fuel. -/
def IntendedEnds (names : Finset String) (n : ℕ) (y : Intended α) : Prop :=
  ∀ ⦃openCalls : Finset String⦄ (env : Variables VCT) (log : List IntendedEvent), (names \ openCalls).card ≤ n →
    y openCalls env log ≠ .error .outOfFuel

variable {names : Finset String} {n : ℕ}

theorem IntendedEnds.bind {y : Intended α} {g : α → Intended β} (hy : IntendedEnds names n y)
    (hg : ∀ a, IntendedEnds names n (g a)) : IntendedEnds names n (y >>= g) := by
  intro openCalls env log hcard
  have hfuel := hy env log hcard
  simp only [Bind.bind]
  rcases hrun : y openCalls env log with e | ⟨a, env₁, log₁⟩
  · exact fun h => hfuel (by cases h; exact hrun)
  · exact hg a env₁ log₁ hcard

theorem IntendedEnds.lookup (name : String) : IntendedEnds names n (Intended.lookup name) := by
  intro openCalls env log hcard
  unfold Intended.lookup
  cases env.getVariable name with
  | none => exact nofun
  | some type => exact nofun

theorem IntendedEnds.block {y : Intended α} (hy : IntendedEnds names n y) :
    IntendedEnds names n (Intended.block y) := by
  intro openCalls env log hcard
  have hfuel := hy env.addVariableBlock log hcard
  unfold Intended.block
  rcases hrun : y openCalls env.addVariableBlock log with e | ⟨a, env₁, log₁⟩
  · exact fun h => hfuel (by cases h; exact hrun)
  · exact nofun

theorem IntendedEnds.call
    (hbody : ∀ {k}, n = k + 1 → ∀ stmt, IntendedEnds functions.keys.toFinset k (intendedBody stmt)) (id : String)
    (hy : IntendedEnds functions.keys.toFinset n y) :
    IntendedEnds functions.keys.toFinset n (Intended.call functions intendedBody id y) := by
  intro openCalls env log hcard
  unfold Intended.call
  by_cases hid : id ∈ openCalls
  · rw [if_pos hid]
    exact nofun
  rw [if_neg hid]
  cases hlookup : functions.lookup id with
  | none => exact nofun
  | some f =>
    dsimp only
    obtain ⟨k, rfl, hcard'⟩ := card_sdiff_insert_le hlookup hid hcard
    have hfuel := hy env.addVariableBlock log (Nat.le_succ_of_le hcard')
    rcases hrun : y (insert id openCalls) env.addVariableBlock log with e | ⟨o, env₁, log₁⟩
    · exact fun h => hfuel (by cases h; exact hrun)
    cases o with
    | none => exact nofun
    | some argTypes =>
      dsimp only
      cases addParams (env₁.take 1) f.paramsNames argTypes with
      | none => exact nofun
      | some params =>
        dsimp only
        have hfuel' := hbody rfl f.body params log₁ hcard'
        rcases hrun : intendedBody f.body (insert id openCalls) params log₁ with e | ⟨inferred, env₂, log₂⟩
        · exact fun h => hfuel' (by cases h; exact hrun)
        · exact nofun

theorem intendedEnds_related
    (hbody : ∀ {k}, n = k + 1 → ∀ stmt, IntendedEnds functions.keys.toFinset k (intendedBody stmt)) :
    RelatedSearches (fun {α} (y _ : Intended α) => IntendedEnds functions.keys.toFinset n y)
      (fun {α} (y _ : Intended α) => IntendedEnds functions.keys.toFinset n y)
      (Intended.search functions intendedBody) (Intended.search functions intendedBody) where
  pure _ := fun _ _ _ _ h => by cases h
  bind hy hg := IntendedEnds.bind hy hg
  lookup name := IntendedEnds.lookup name
  call id := fun hy => IntendedEnds.call hbody id hy
  panic := fun _ _ _ h => by cases h
  ofExpression hy := hy
  sequence hy hg := IntendedEnds.bind hy hg
  declare _ _ := fun _ _ _ _ h => by cases h
  block hy := IntendedEnds.block hy

theorem intendedBody_ends : ∀ (fuel : ℕ) (stmt : Statement), IntendedEnds functions.keys.toFinset fuel
    (Intended.inferBody functions concreteDimensions (fuel + 1) stmt)
  | 0, stmt => (intendedEnds_related fun h => by cases h).statement concreteDimensions stmt
  | fuel + 1, stmt =>
    (intendedEnds_related fun h => by
      cases h
      exact intendedBody_ends fuel).statement concreteDimensions stmt

/-! ## The events are only added -/

/-- If all arguments have types after the search, they did before. -/
def KeepsEvents (y : Intended α) : Prop :=
  ∀ ⦃openCalls : Finset String⦄ ⦃env env' : Variables VCT⦄ ⦃log log' : List IntendedEvent⦄ ⦃a : α⦄,
    y openCalls env log = .ok (a, env', log') → AllResolved log' → AllResolved log

theorem AllResolved.of_append {log log' : List IntendedEvent} (h : AllResolved (log ++ log')) : AllResolved log :=
  fun id hid => h id (List.mem_append_left _ hid)

theorem KeepsEvents.pure (a : α) : KeepsEvents (Pure.pure a : Intended α) := by
  intro openCalls env env' log log' a h hresolved
  cases h
  exact hresolved

theorem KeepsEvents.bind {y : Intended α} {g : α → Intended β} (hy : KeepsEvents y) (hg : ∀ a, KeepsEvents (g a)) :
    KeepsEvents (y >>= g) := by
  intro openCalls env env' log log' b h hresolved
  obtain ⟨a, env₁, log₁, h₁, h₂⟩ := Intended.bind_eq_ok h
  exact hy h₁ (hg a h₂ hresolved)

theorem KeepsEvents.withType {y : Intended (Option α)} {g : α → Intended (Option β)} (hy : KeepsEvents y)
    (hg : ∀ a, KeepsEvents (g a)) : KeepsEvents (Hir.withType y g) := by
  refine hy.bind fun o => ?_
  cases o with
  | none => exact .pure none
  | some a => exact hg a

theorem KeepsEvents.lookup (name : String) : KeepsEvents (Intended.lookup name) := by
  intro openCalls env env' log log' type h hresolved
  unfold Intended.lookup at h
  cases hget : env.getVariable name with
  | none =>
    rw [hget] at h
    cases h
  | some type =>
    rw [hget] at h
    cases h
    exact hresolved.of_append

theorem KeepsEvents.block {y : Intended α} (hy : KeepsEvents y) : KeepsEvents (Intended.block y) := by
  intro openCalls env env' log log' a h hresolved
  unfold Intended.block at h
  rcases hrun : y openCalls env.addVariableBlock log with e | ⟨a', env₁, log₁⟩
  · rw [hrun] at h
    cases h
  · rw [hrun] at h
    cases h
    exact hy hrun hresolved

theorem KeepsEvents.call
    (hbody : ∀ stmt, KeepsEvents (intendedBody stmt)) (id : String)
    (hy : KeepsEvents y) : KeepsEvents (Intended.call functions intendedBody id y) := by
  intro openCalls env env' log log' inferred h hresolved
  by_cases hid : id ∈ openCalls
  · unfold Intended.call at h
    rw [if_pos hid] at h
    cases h
    exact hresolved.of_append
  · obtain ⟨f, o, env₁, log₁, -, hargs, -, ⟨-, -, rfl⟩ | ⟨_, _, _, log₂, -, -, hcallee, rfl⟩⟩ :=
      Intended.call_eq_ok hid h
    · exact hy hargs hresolved.of_append
    · exact hy hargs (hbody f.body hcallee hresolved.of_append)

theorem keepsEvents_related (hbody : ∀ stmt, KeepsEvents (intendedBody stmt)) :
    RelatedSearches (fun {α} (y _ : Intended α) => KeepsEvents y) (fun {α} (y _ : Intended α) => KeepsEvents y)
      (Intended.search functions intendedBody) (Intended.search functions intendedBody) where
  pure a := KeepsEvents.pure a
  bind hy hg := KeepsEvents.bind hy hg
  lookup name := KeepsEvents.lookup name
  call id := fun hy => KeepsEvents.call hbody id hy
  panic := fun h => by cases h
  ofExpression hy := hy
  sequence hy hg := KeepsEvents.bind hy hg
  declare _ _ := fun _ _ _ _ _ _ h hresolved => by
    cases h
    exact hresolved
  block hy := KeepsEvents.block hy

theorem intendedBody_keepsEvents : ∀ (fuel : ℕ) (stmt : Statement),
    KeepsEvents (Intended.inferBody functions concreteDimensions fuel stmt)
  | 0, _ => fun _ _ _ _ _ _ h => by cases h
  | fuel + 1, stmt => (keepsEvents_related (intendedBody_keepsEvents fuel)).statement concreteDimensions stmt

/-! ## Functions that have a type -/

/-- If none of the functions that are known to have a type is open, the search finds one. -/
def FindsType (typed : String → Prop) (y : Intended (Option α)) : Prop :=
  ∀ ⦃openCalls : Finset String⦄ ⦃env env' : Variables VCT⦄ ⦃log log' : List IntendedEvent⦄ ⦃o : Option α⦄,
    (∀ id ∈ openCalls, ¬ typed id) → y openCalls env log = .ok (o, env', log') → AllResolved log' → o.isSome

section

variable {typed : String → Prop}

theorem FindsType.pure (a : α) : FindsType typed (Pure.pure (some a)) := by
  intro openCalls env env' log log' o _ h _
  cases h
  rfl

theorem FindsType.of_isSome {o : Option α} (h : o.isSome) : FindsType typed (Pure.pure o) := by
  obtain ⟨a, rfl⟩ := Option.isSome_iff_exists.mp h
  exact .pure a

theorem FindsType.panic : FindsType typed (fun _ _ _ => .error .panic : Intended (Option α)) := by
  intro openCalls env env' log log' o _ h _
  cases h

theorem FindsType.bind {y : Intended α} {g : α → Intended (Option β)} (hg : ∀ a, FindsType typed (g a)) :
    FindsType typed (y >>= g) := by
  intro openCalls env env' log log' o hopen h hresolved
  obtain ⟨a, env₁, log₁, -, h₂⟩ := Intended.bind_eq_ok h
  exact hg a hopen h₂ hresolved

/-- After a search that finds a type, the rest has to find one for types only. -/
theorem FindsType.bind_some {y : Intended (Option α)} {g : Option α → Intended (Option β)} (hy : FindsType typed y)
    (hg : ∀ a, FindsType typed (g (some a))) (hkeeps : ∀ a, KeepsEvents (g a)) : FindsType typed (y >>= g) := by
  intro openCalls env env' log log' o hopen h hresolved
  obtain ⟨a, env₁, log₁, h₁, h₂⟩ := Intended.bind_eq_ok h
  obtain ⟨a, rfl⟩ := Option.isSome_iff_exists.mp (hy hopen h₁ (hkeeps a h₂ hresolved))
  exact hg a hopen h₂ hresolved

theorem FindsType.block {y : Intended (Option α)} (hy : FindsType typed y) : FindsType typed (Intended.block y) := by
  intro openCalls env env' log log' o hopen h hresolved
  unfold Intended.block at h
  rcases hrun : y openCalls env.addVariableBlock log with e | ⟨a', env₁, log₁⟩
  · rw [hrun] at h
    cases h
  · rw [hrun] at h
    cases h
    exact hy hopen hrun hresolved

theorem FindsType.withType {y : Intended (Option α)} {g : α → Intended (Option β)} (hy : FindsType typed y)
    (hg : ∀ a, FindsType typed (g a)) (hkeeps : ∀ a, KeepsEvents (g a)) : FindsType typed (Hir.withType y g) := by
  refine hy.bind_some hg fun a => ?_
  cases a with
  | none => exact .pure none
  | some a => exact hkeeps a

theorem joinTypes_isSome_left {returns : Option VCT} (h : returns.isSome) (newValue : Option VCT) :
    (joinTypes returns newValue).isSome := by
  obtain ⟨type, rfl⟩ := Option.isSome_iff_exists.mp h
  cases newValue with
  | none => rfl
  | some newValue => rfl

theorem joinTypes_isSome_right (returns : Option VCT) (newValue : VCT) : (joinTypes returns (some newValue)).isSome := by
  cases returns with
  | none => rfl
  | some returns => rfl

theorem joinBranches_isSome {returns elseReturns : Option VCT} (h : returns.isSome ∨ elseReturns.isSome) :
    (joinBranches returns elseReturns).isSome := by
  cases returns with
  | none => exact h.resolve_left (by exact Bool.false_ne_true)
  | some returns =>
    cases elseReturns with
    | none => rfl
    | some elseReturns => rfl

/-- Calls of functions that are known to have a type find one. -/
structure CallsFindTypes (functions : HashMap String GenericFunction) (typed : String → Prop)
    (intendedBody : Statement → Intended (Option VCT)) : Prop where
  keeps : ∀ stmt, KeepsEvents (intendedBody stmt)
  call : ∀ id {y : Intended (Option (List VCT))}, typed id → KeepsEvents y →
    FindsType typed (Intended.call functions intendedBody id y)

namespace CallsFindTypes

variable {intendedBody : Statement → Intended (Option VCT)}

theorem related (h : CallsFindTypes functions typed intendedBody) :
    RelatedSearches (fun {α} (y _ : Intended α) => KeepsEvents y) (fun {α} (y _ : Intended α) => KeepsEvents y)
      (Intended.search functions intendedBody) (Intended.search functions intendedBody) :=
  keepsEvents_related h.keeps

mutual

theorem expression (h : CallsFindTypes functions typed intendedBody) : ∀ e : Expression, HasType typed e →
    FindsType typed (inferTypeExpression (Intended.search functions intendedBody) e)
  | .call _ id args, htyped => h.call id htyped (h.related.args_ args)
  | .var _ name access, _ => by
    refine .bind fun type => ?_
    by_cases hle : access.length ≤ type.length
    · rw [if_pos hle]
      exact .pure _
    · rw [if_neg hle]
      exact .panic
  | .arrayInLine _ [], _ => .panic
  | .arrayInLine _ (value :: values), htyped =>
    .withType (expression h value htyped.1)
      (fun type => .withType (elements h values htyped.2 type) (fun _ => .pure _) fun _ => .pure _)
      fun type => .withType (h.related.elements values type) fun _ => .pure _
  | .uniformArray _ value dimension, htyped =>
    .bind fun _ => .withType (expression h value htyped) (fun _ => .pure _) fun _ => .pure _
  | .inlineSwitchOp _ _ ifTrue ifFalse, htyped => by
    intro openCalls env env' log log' o hopen hrun hresolved
    obtain ⟨castsTo, env₁, log₁, htrue, hrun⟩ := Intended.bind_eq_ok hrun
    cases castsTo with
    | some castsTo =>
      cases hrun
      rfl
    | none =>
      -- the first arm has no type, and nothing after it takes an event away
      have hfalse := h.related.expression ifFalse hrun hresolved
      rcases htyped with htyped | htyped
      · exact absurd (expression h ifTrue htyped hopen htrue hfalse) (by exact Bool.false_ne_true)
      · exact expression h ifFalse htyped hopen hrun hresolved
  | .infixOp .., _ => .pure _
  | .prefixOp .., _ => .pure _
  | .parallelOp _ rhe, htyped => expression h rhe htyped
  | .number .., _ => .pure _
  | .busCall .., htyped => htyped.elim
  | .anonymousComp .., htyped => htyped.elim
  | .tuple .., htyped => htyped.elim

theorem elements (h : CallsFindTypes functions typed intendedBody) : ∀ (values : List Expression),
    HaveTypes typed values → ∀ type : VCT, FindsType typed (inferElements (Intended.search functions intendedBody) type values)
  | [], _, _ => .pure _
  | value :: values, htyped, type =>
    .withType (expression h value htyped.1)
      (fun _ => .bind fun type => elements h values htyped.2 type)
      fun auxType => .bind (h.related.unwrap (maxDimensions type auxType))
        fun type => h.related.elements values type

end

mutual

theorem statement (h : CallsFindTypes functions typed intendedBody) : ∀ stmt : Statement, ReturnsType typed stmt →
    FindsType typed (inferTypeStmt (Intended.search functions intendedBody) concreteDimensions stmt)
  | .returnStmt _ value, htyped => h.expression value htyped
  | .block _ stmts, htyped => .block (statements h stmts none (.inr htyped))
  | .ifThenElse _ _ ifCase none, htyped => statement h ifCase htyped
  | .ifThenElse _ _ ifCase (some elseCase), .inl htyped =>
    .bind_some (statement h ifCase htyped) (fun _ => .bind fun _ => .of_isSome (joinBranches_isSome (.inl rfl)))
      fun _ => .bind (h.related.statement concreteDimensions elseCase) fun _ => .pure _
  | .ifThenElse _ _ ifCase (some elseCase), .inr htyped =>
    .bind fun _ => .bind_some (statement h elseCase htyped)
      (fun _ => .of_isSome (joinBranches_isSome (.inr rfl))) fun _ => .pure _
  | .whileStmt _ _ stmt, htyped => statement h stmt htyped
  | .initializationBlock .., htyped => htyped.elim
  | .declaration .., htyped => htyped.elim
  | .substitution .., htyped => htyped.elim
  | .multSubstitution .., htyped => htyped.elim
  | .underscoreSubstitution .., htyped => htyped.elim
  | .constraintEquality .., htyped => htyped.elim
  | .logCall .., htyped => htyped.elim
  | .assert .., htyped => htyped.elim

theorem statements (h : CallsFindTypes functions typed intendedBody) : ∀ (stmts : List Statement)
    (returns : Option VCT), returns.isSome ∨ SomeReturnsType typed stmts →
    FindsType typed (inferTypeStmts (Intended.search functions intendedBody) concreteDimensions returns stmts)
  | [], _, .inl hreturns => .of_isSome hreturns
  | _ :: stmts, _, .inl hreturns =>
    .bind fun newValue => statements h stmts _ (.inl (joinTypes_isSome_left hreturns newValue))
  | stmt :: stmts, returns, .inr (.inl htyped) =>
    .bind_some (statement h stmt htyped)
      (fun newValue => statements h stmts _ (.inl (joinTypes_isSome_right returns newValue)))
      fun newValue => h.related.statements concreteDimensions stmts (joinTypes returns newValue)
  | _ :: stmts, _, .inr (.inr htyped) => .bind fun _ => statements h stmts _ (.inr htyped)

end

end CallsFindTypes

end

theorem TypedWithin.mono {j : ℕ} (hjk : j ≤ k) (h : TypedWithin functions j id) : TypedWithin functions k id := by
  induction hjk with
  | refl => exact h
  | step _ ih => exact .inl ih

/-- The least number of calls within which a function has a type. -/
theorem TypedWithin.least (h : TypedWithin functions k id) :
    ∃ j, j < k ∧ ¬ TypedWithin functions j id ∧
      ∃ f, functions.lookup id = some f ∧ ReturnsType (TypedWithin functions j) f.body := by
  induction k with
  | zero => exact h.elim
  | succ k ih =>
    by_cases hk : TypedWithin functions k id
    · obtain ⟨j, hj, hleast⟩ := ih hk
      exact ⟨j, Nat.lt_succ_of_lt hj, hleast⟩
    · exact ⟨k, Nat.lt_succ_self k, hk, h.resolve_left hk⟩

/-- A call of a function with a type finds it, since its body needs calls of functions that need fewer ones. -/
theorem call_findsType
    (hbody : ∀ j stmt, ReturnsType (TypedWithin functions j) stmt → FindsType (TypedWithin functions j) (intendedBody stmt))
    (htyped : TypedWithin functions k id) :
    FindsType (TypedWithin functions k) (Intended.call functions intendedBody id y) := by
  intro openCalls env env' log log' o hopen h hresolved
  have hid : id ∉ openCalls := fun hmem => hopen id hmem htyped
  obtain ⟨f, _, _, _, hlookup, -, -, ⟨-, -, rfl⟩ | ⟨_, params, _, log₂, -, -, hcallee, rfl⟩⟩ := Intended.call_eq_ok hid h
  · exact absurd (List.mem_append_right _ (List.mem_singleton.mpr rfl)) (hresolved id)
  · obtain ⟨j, hj, hnot, f', hlookup', hreturns⟩ := htyped.least
    cases hlookup.symm.trans hlookup'
    refine hbody j f.body hreturns (fun name hname => ?_) hcallee hresolved.of_append
    rcases Finset.mem_insert.mp hname with rfl | hname
    · exact hnot
    · exact fun hname' => hopen name hname (hname'.mono (Nat.le_of_lt hj))

theorem intendedBody_findsType : ∀ (fuel k : ℕ) (stmt : Statement), ReturnsType (TypedWithin functions k) stmt →
    FindsType (TypedWithin functions k) (Intended.inferBody functions concreteDimensions fuel stmt)
  | 0, _, _, _ => fun _ _ _ _ _ _ _ h => by cases h
  | fuel + 1, _, stmt, hreturns =>
    CallsFindTypes.statement
      { keeps := intendedBody_keepsEvents fuel
        call := fun _ _ htyped _ => call_findsType (intendedBody_findsType fuel) htyped }
      stmt hreturns

/-! ## The inferred type -/

theorem foldl_addVariable_ne_nil (params : List Param) {blocks : Variables VCT} (hblocks : blocks ≠ []) :
    params.foldl (fun blocks p => blocks.addVariable p.name p.length) blocks ≠ [] := by
  induction params generalizing blocks with
  | nil => exact hblocks
  | cons p params ih => exact ih (addVariable_ne_nil hblocks p.name p.length)

theorem lookedUp_eq {ilog : List IntendedEvent} {log : List SearchEvent} (h : List.Forall₂ Agrees ilog log) :
    log.filterMap SearchEvent.lookedUp = ilog.filterMap IntendedEvent.lookedUp := by
  induction h with
  | nil => rfl
  | @cons ie e ilog log he _ ih =>
    have hsame : e.lookedUp = ie.lookedUp := by
      cases ie with
      | lookup name type =>
        cases e with
        | lookup name' type' =>
          obtain ⟨rfl, rfl⟩ := he
          rfl
        | call id before after => exact he.elim
      | call id =>
        cases e with
        | lookup name type => exact he.elim
        | call id' before after => rfl
      | unresolved id => exact he.elim
    rw [List.filterMap_cons, List.filterMap_cons, hsame, ih]

theorem not_leaks_of_agrees {ilog : List IntendedEvent} {log : List SearchEvent} (h : List.Forall₂ Agrees ilog log)
    {before after : SearchInfo} (hmem : .call id before after ∈ log) : after = before := by
  induction h with
  | nil => cases hmem
  | @cons ie e ilog log he _ ih =>
    cases hmem with
    | head =>
      cases ie with
      | lookup name type => exact he.elim
      | call id' => exact he.2
      | unresolved id' => exact he.elim
    | tail _ hmem => exact ih hmem

/-- The search ends, and it finds the type of the intended one, with all blocks as they were, if and only if every
argument that it meets has a type. The hypothesis on the intended search leaves out the functions that the type
analysis rejects, and those with a substitution `_ = e;`, for which both searches are `unreachable!`. -/
theorem returnType_behaves_iff
    (htyped : ∀ id f, functions.lookup id = some f → ∃ calls, TypedWithin functions calls id) (id : String) (params : List Param)
    (haccepted : Intended.inferFunctionResult functions concreteDimensions id params ≠ .error .panic) :
    (inferFunctionResult functions concreteDimensions id params).1 ≠ .error .outOfFuel ∧
      ∃ type ilog, Intended.inferFunctionResult functions concreteDimensions id params = .ok (type, ilog) ∧
        (Behaves type ilog (inferFunctionResult functions concreteDimensions id params) ↔ AllResolved ilog) := by
  refine ⟨inferFunctionResult_ends id params, ?_⟩
  unfold Intended.inferFunctionResult at haccepted ⊢
  unfold inferFunctionResult
  cases hlookup : functions.lookup id with
  | none =>
    rw [hlookup] at haccepted
    exact absurd rfl haccepted
  | some f =>
    rw [hlookup] at haccepted
    dsimp only at haccepted ⊢
    have hcard : (functions.keys.toFinset \ {id}).card ≤ functions.len := by
      refine Nat.le_trans (Finset.card_le_card Finset.sdiff_subset) ?_
      rw [AList.len_eq_length_keys]
      exact List.toFinset_card_le _
    have hfuel : Intended.inferBody functions concreteDimensions (functions.len + 1) f.body {id}
        (params.foldl (fun blocks p => blocks.addVariable p.name p.length) [∅]) [] ≠ .error .outOfFuel :=
      intendedBody_ends functions.len f.body _ [] hcard
    have hne := foldl_addVariable_ne_nil params (List.cons_ne_nil (∅ : HashMap String VCT) [])
    rcases hrun : Intended.inferBody functions concreteDimensions (functions.len + 1) f.body {id}
        (params.foldl (fun blocks p => blocks.addVariable p.name p.length) [∅]) [] with e | ⟨type, env, ilog⟩
    · rw [hrun] at haccepted hfuel
      cases e with
      | panic => exact absurd rfl haccepted
      | outOfFuel => exact absurd rfl hfuel
    refine ⟨type, ilog, by rw [hrun], ?_⟩
    obtain ⟨ievents, hilog, hfollows⟩ := (inferBody_simulates (functions.len + 1) f.body).run [] [] hne hrun
    rw [List.nil_append] at hilog
    subst hilog
    have hstart : SearchInfo.ofParams id params =
        ⟨params.foldl (fun (blocks : Variables VCT) p => blocks.addVariable p.name p.length) [∅] ++ [], {id}⟩ := by
      rw [List.append_nil]
      rfl
    constructor
    · intro hbehaves
      by_contra hnot
      obtain ⟨e, he, hleaks⟩ := hfollows.unresolved hnot
      cases e with
      | lookup name type => exact hleaks
      | call name before after => exact hleaks (hbehaves.restored name before after (by rw [hstart]; exact he))
    · intro hresolved
      obtain ⟨k, htyped⟩ := htyped id f hlookup
      obtain ⟨j, -, hnot, f', hlookup', hreturns⟩ := htyped.least
      cases hlookup.symm.trans hlookup'
      have hsome := intendedBody_findsType (functions.len + 1) j f.body hreturns
        (fun name hname => Finset.mem_singleton.mp hname ▸ hnot) hrun hresolved
      obtain ⟨type, rfl⟩ := Option.isSome_iff_exists.mp hsome
      obtain ⟨events, hagrees, hrun'⟩ := hfollows.resolved hresolved
      rw [hstart, hrun']
      exact ⟨rfl, hsome, fun _ _ _ hmem => not_leaks_of_agrees hagrees hmem, lookedUp_eq hagrees⟩

def nodeInfo : Meta := ⟨0, 0, none⟩

def paramX : Expression := .var nodeInfo "x" []

def callSq (arg : Expression) : Expression := .call nodeInfo "sq" [arg]

/-- `function sq(x) { return x * x; }` and `function main(x) { return value; }`. -/
def squares (value : Expression) : HashMap String GenericFunction :=
  AList.insert "main" ⟨["x"], .returnStmt nodeInfo value⟩
    (AList.insert "sq" ⟨["x"], .returnStmt nodeInfo (.infixOp nodeInfo paramX .mul paramX)⟩ ∅)

theorem squares_typed {value : Expression}
    (hvalue : HasType (TypedWithin (squares value) 1) value) (id : String) (f : GenericFunction)
    (hlookup : (squares value).lookup id = some f) : ∃ calls, TypedWithin (squares value) calls id := by
  refine ⟨2, ?_⟩
  have hsq : TypedWithin (squares value) 1 "sq" := .inr ⟨_, rfl, trivial⟩
  by_cases hmain : id = "main"
  · rw [hmain]
    exact .inr ⟨_, rfl, hvalue⟩
  · by_cases hid : id = "sq"
    · rw [hid]
      exact .inl hsq
    · unfold squares at hlookup
      rw [AList.lookup_insert_ne hmain, AList.lookup_insert_ne hid] at hlookup
      cases hlookup

theorem hasType_callSq (value arg : Expression) : HasType (TypedWithin (squares value) 1) (callSq arg) :=
  .inr ⟨_, rfl, trivial⟩

/-- The inference of `return sq(x);`. -/
theorem returnType_behaves_iff_sq :
    (inferFunctionResult (squares (callSq paramX)) (fun _ => []) "main" [⟨"x", []⟩]).1 ≠ .error .outOfFuel ∧
      ∃ type ilog, Intended.inferFunctionResult (squares (callSq paramX)) (fun _ => []) "main" [⟨"x", []⟩] =
          .ok (type, ilog) ∧
        (Behaves type ilog (inferFunctionResult (squares (callSq paramX)) (fun _ => []) "main" [⟨"x", []⟩]) ↔
          AllResolved ilog) :=
  returnType_behaves_iff (squares_typed (hasType_callSq _ _)) "main" [⟨"x", []⟩] (by
    intro h
    cases h)

/-- In `return sq(sq(x));` the inner call is one of a function that is open, so the outer one finds no type and stays
open. -/
theorem not_returnType_behaves :
    (∀ id f, (squares (callSq (callSq paramX))).lookup id = some f →
      ∃ calls, TypedWithin (squares (callSq (callSq paramX))) calls id) ∧
    Intended.inferFunctionResult (squares (callSq (callSq paramX))) (fun _ => []) "main" [⟨"x", []⟩] =
      .ok (none, [.call "sq", .unresolved "sq"]) ∧
    (inferFunctionResult (squares (callSq (callSq paramX))) (fun _ => []) "main" [⟨"x", []⟩]).1 = .ok none ∧
    ∃ before after, .call "sq" before after ∈
        (inferFunctionResult (squares (callSq (callSq paramX))) (fun _ => []) "main" [⟨"x", []⟩]).2 ∧
      after.openCalls ≠ before.openCalls ∧
      after.environment.length = before.environment.length + 1 := by
  refine ⟨squares_typed (hasType_callSq _ _), rfl, rfl, ⟨[AList.insert "x" [] ∅], {"main"}⟩, _,
    List.mem_cons_of_mem _ List.mem_cons_self, ?_, rfl⟩
  decide

end Circom.Hir
