import Circom.LlzkBackend.Proofs.TemplateWalks

/-!
# Walks with a finished table

A walk whose constructors are specialized one by one yields what the walk yields that looks their names up in
the table of all specializations.
-/

namespace Circom.LlzkBackend

open Circom.Ast
open Circom.Lib (HashMap Saved)

/-- The table has all entries of the other one. -/
def Extended (table table' : HashMap Specialization String) : Prop :=
  ∀ key name, table.lookup key = some name → table'.lookup key = some name

theorem Extended.refl (table : HashMap Specialization String) : Extended table table := fun _ _ h => h

theorem Extended.trans {table table' table'' : HashMap Specialization String}
    (h : Extended table table') (h' : Extended table' table'') : Extended table table'' :=
  fun key name hname => h' key name (h key name hname)

theorem extended_insert {table : HashMap Specialization String} {key : Specialization}
    (h : table.lookup key = none) (name : String) : Extended table (table.insert key name) := by
  intro other name' hother
  have hne : other ≠ key := by
    rintro rfl
    rw [h] at hother
    cases hother
  rw [AList.lookup_insert_ne hne]
  exact hother

/-- Looks a specialization up instead of making it. -/
def tableName (table : HashMap Specialization String) (key : Specialization) : Prepares String :=
  match table.lookup key with
  | some name => pure name
  | none => interrupt .outOfFuel

/-- Of a preparation what a walk with a finished table depends on. -/
def Preparation.view (s : Preparation) : Preparation := { Preparation.empty with loopBudget := s.loopBudget }

/-- From the preparation, what the first computation returns, with a table that is only extended, the second one
returns without it, whenever the finished table has all entries. While a loop is expanded, the errors are the
same too, and no entry is made. -/
structure ReplaysAt (table : HashMap Specialization String) (s : Preparation) {α : Type}
    (x y : Prepares α) : Prop where
  extended (a : α) (t : Preparation) (hrun : x.run s = .ok (a, t)) :
    Extended s.specializations t.specializations
  budget (a : α) (t : Preparation) (hrun : x.run s = .ok (a, t)) :
    t.loopBudget.isSome = s.loopBudget.isSome
  probing (a : α) (t : Preparation) (hrun : x.run s = .ok (a, t)) (hprobe : s.loopBudget.isSome = true) :
    t.specializations = s.specializations
  ok (a : α) (t : Preparation) (hrun : x.run s = .ok (a, t)) (htable : Extended t.specializations table) :
    y.run s.view = .ok (a, t.view)
  error (e : Interruption) (hrun : x.run s = .error e) (hprobe : s.loopBudget.isSome = true)
    (htable : Extended s.specializations table) : y.run s.view = .error e

/-- The same from every preparation. -/
def Replays (table : HashMap Specialization String) {α : Type} (x y : Prepares α) : Prop :=
  ∀ s, ReplaysAt table s x y

section Rules

variable {table : HashMap Specialization String} {s : Preparation} {α β : Type}

theorem run_bind_eq_ok {x : Prepares α} {f : α → Prepares β} {u : Preparation} {b : β}
    (h : (x >>= f).run s = .ok (b, u)) : ∃ a t, x.run s = .ok (a, t) ∧ (f a).run t = .ok (b, u) := by
  rw [StateT.run_bind] at h
  obtain ⟨⟨a, t⟩, hx, hf⟩ := Lib.bind_eq_ok h
  exact ⟨a, t, hx, hf⟩

theorem run_bind_of_ok {x : Prepares α} (f : α → Prepares β) {t : Preparation} {a : α}
    (h : x.run s = .ok (a, t)) : (x >>= f).run s = (f a).run t := by
  rw [StateT.run_bind, h]
  rfl

theorem run_bind_of_error {x : Prepares α} (f : α → Prepares β) {e : Interruption}
    (h : x.run s = .error e) : (x >>= f).run s = .error e := by
  rw [StateT.run_bind, h]
  rfl

theorem ReplaysAt.bind {x y : Prepares α} {f g : α → Prepares β} (h : ReplaysAt table s x y)
    (hf : ∀ a t, t.loopBudget.isSome = s.loopBudget.isSome → ReplaysAt table t (f a) (g a)) :
    ReplaysAt table s (x >>= f) (y >>= g) where
  extended b u hrun := by
    obtain ⟨a, t, hx, hfa⟩ := run_bind_eq_ok hrun
    exact (h.extended a t hx).trans ((hf a t (h.budget a t hx)).extended b u hfa)
  budget b u hrun := by
    obtain ⟨a, t, hx, hfa⟩ := run_bind_eq_ok hrun
    exact ((hf a t (h.budget a t hx)).budget b u hfa).trans (h.budget a t hx)
  probing b u hrun hprobe := by
    obtain ⟨a, t, hx, hfa⟩ := run_bind_eq_ok hrun
    have hbudget := h.budget a t hx
    exact ((hf a t hbudget).probing b u hfa (hbudget.trans hprobe)).trans (h.probing a t hx hprobe)
  ok b u hrun htable := by
    obtain ⟨a, t, hx, hfa⟩ := run_bind_eq_ok hrun
    have hstep := hf a t (h.budget a t hx)
    rw [run_bind_of_ok g (h.ok a t hx ((hstep.extended b u hfa).trans htable))]
    exact hstep.ok b u hfa htable
  error e hrun hprobe htable := by
    rcases hx : x.run s with e' | ⟨a, t⟩
    · rw [run_bind_of_error f hx] at hrun
      cases hrun
      exact run_bind_of_error g (h.error _ hx hprobe htable)
    · rw [run_bind_of_ok f hx] at hrun
      have hbudget := h.budget a t hx
      have hentries : Extended t.specializations table := by
        rw [h.probing a t hx hprobe]
        exact htable
      rw [run_bind_of_ok g (h.ok a t hx hentries)]
      exact (hf a t hbudget).error e hrun (hbudget.trans hprobe) hentries

theorem Replays.bind {x y : Prepares α} {f g : α → Prepares β} (h : Replays table x y)
    (hf : ∀ a, Replays table (f a) (g a)) : Replays table (x >>= f) (y >>= g) :=
  fun s => (h s).bind fun a t _ => hf a t

/-- A computation that changes nothing but the budget. -/
theorem replaysAt_of_run {x y : Prepares α} {r : Except Interruption (α × Option ℕ)}
    (hbudget : ∀ a b, r = .ok (a, b) → b.isSome = s.loopBudget.isSome)
    (hx : x.run s = r.map fun e => (e.1, { s with loopBudget := e.2 }))
    (hy : y.run s.view = r.map fun e => (e.1, { s.view with loopBudget := e.2 })) :
    ReplaysAt table s x y := by
  cases r with
  | error e =>
    exact
      { extended := fun a t hrun => by rw [hx] at hrun; cases hrun
        budget := fun a t hrun => by rw [hx] at hrun; cases hrun
        probing := fun a t hrun => by rw [hx] at hrun; cases hrun
        ok := fun a t hrun => by rw [hx] at hrun; cases hrun
        error := fun e' hrun _ _ => by
          rw [hx] at hrun
          rw [hy]
          cases hrun
          rfl }
  | ok e =>
    have hok : ∀ a t, x.run s = .ok (a, t) → a = e.1 ∧ t = { s with loopBudget := e.2 } := by
      intro a t hrun
      rw [hx] at hrun
      cases hrun
      exact ⟨rfl, rfl⟩
    exact
      { extended := fun a t hrun => by
          obtain ⟨-, rfl⟩ := hok a t hrun
          exact Extended.refl _
        budget := fun a t hrun => by
          obtain ⟨-, rfl⟩ := hok a t hrun
          exact hbudget e.1 e.2 rfl
        probing := fun a t hrun _ => by
          obtain ⟨-, rfl⟩ := hok a t hrun
          rfl
        ok := fun a t hrun _ => by
          obtain ⟨rfl, rfl⟩ := hok a t hrun
          rw [hy]
          rfl
        error := fun e' hrun => by rw [hx] at hrun; cases hrun }

theorem replays_pure (a : α) : Replays table (pure a) (pure a) := fun s =>
  replaysAt_of_run (r := .ok (a, s.loopBudget)) (fun _ _ h => by cases h; rfl) rfl rfl

theorem replays_interrupt (e : Interruption) :
    Replays table (interrupt e : Prepares α) (interrupt e) := fun s =>
  replaysAt_of_run (r := .error e) (fun _ _ h => by cases h) rfl rfl

theorem replays_prepared (result : Except Failure α) :
    Replays table (prepared result) (prepared result) := by
  cases result with
  | error failure => exact replays_interrupt _
  | ok a => exact replays_pure a

theorem ReplaysAt.ite {c : Prop} [Decidable c] {x y x' y' : Prepares α} (h : c → ReplaysAt table s x y)
    (h' : ¬ c → ReplaysAt table s x' y') :
    ReplaysAt table s (if c then x else x') (if c then y else y') := by
  by_cases hc : c
  · rw [if_pos hc, if_pos hc]
    exact h hc
  · rw [if_neg hc, if_neg hc]
    exact h' hc

theorem replays_visit : Replays table visit visit := by
  intro s
  obtain ⟨templates, specializations, active, recursiveDepth, loopBudget⟩ := s
  match loopBudget with
  | none => exact replaysAt_of_run (r := .ok ((), none)) (fun _ _ h => by cases h; rfl) rfl rfl
  | some 0 => exact replaysAt_of_run (r := .error .unresolvedLoop) (fun _ _ h => by cases h) rfl rfl
  | some (remaining + 1) =>
    exact replaysAt_of_run (r := .ok ((), some remaining)) (fun _ _ h => by cases h; rfl) rfl rfl

/-- What is read is the preparation itself or its view. -/
theorem replaysAt_get {f g : Preparation → Prepares α} (h : ReplaysAt table s (f s) (g s.view)) :
    ReplaysAt table s (get >>= f) (get >>= g) :=
  ⟨h.extended, h.budget, h.probing, h.ok, h.error⟩

/-- Outside of a probe nothing is said of a walk that fails. -/
theorem replaysAt_interrupt (hs : s.loopBudget = none) (e : Interruption) (y : Prepares α) :
    ReplaysAt table s (interrupt e) y where
  extended a t hrun := by cases hrun
  budget a t hrun := by cases hrun
  probing a t hrun := by cases hrun
  ok a t hrun := by cases hrun
  error e' _ hprobe := by
    rw [hs] at hprobe
    cases hprobe

end Rules

section Walks

variable {table : HashMap Specialization String} {attempt : Attempt} {s : Preparation}
  {specialize : Specialization → Prepares String}
  {walk walk' : Statement → Shapes → Constants → Prepares Walked}

/-- What is specialized outside of a probe is looked up in the finished table. -/
def ReplaysNames (table : HashMap Specialization String) (specialize : Specialization → Prepares String) :
    Prop :=
  ∀ key s, s.loopBudget = none → ReplaysAt table s (specialize key) (tableName table key)

theorem eq_none_of_isSome_eq {o o' : Option ℕ} (h : o.isSome = o'.isSome) (ho : o' = none) : o = none := by
  cases o with
  | none => rfl
  | some n =>
    rw [ho] at h
    cases h

theorem not_repeatsWithArrays_view (id : String) (shapes : List (Option (List ℕ))) :
    ¬ repeatsWithArrays id shapes s.view.active := by
  rintro ⟨key, hkey, -⟩
  exact Finset.notMem_empty key hkey

theorem replays_call (h : ReplaysNames table specialize) (hs : s.loopBudget = none) (shapes : Shapes)
    (constants : Constants) (rhe : Expression) :
    ReplaysAt table s (call attempt specialize shapes constants rhe)
      (call attempt (tableName table) shapes constants rhe) := by
  match rhe with
  | .parallelOp info rhe =>
    rw [call, call]
    exact (replays_call h hs shapes constants rhe).bind fun _ => fun t _ => replays_pure _ t
  | .call info id args =>
    rw [call, call]
    refine ReplaysAt.ite (fun _ => replays_pure _ s) fun _ => ?_
    refine (replays_prepared _ s).bind fun keyShapes t ht => ?_
    have ht := eq_none_of_isSome_eq ht hs
    refine replaysAt_get ?_
    have hview : ¬ (id ∉ attempt.expanded ∧ repeatsWithArrays id keyShapes t.view.active) :=
      fun hrepeats => not_repeatsWithArrays_view id keyShapes hrepeats.2
    by_cases hrepeats : id ∉ attempt.expanded ∧ repeatsWithArrays id keyShapes t.active
    · rw [if_pos hrepeats]
      exact replaysAt_interrupt ht _ _
    · rw [if_neg hrepeats, if_neg hview]
      refine (replays_prepared _ t).bind fun values u hu => ?_
      refine (h _ u (eq_none_of_isSome_eq hu ht)).bind fun name v _ => ?_
      exact (replays_prepared _ v).bind fun _ w _ => replays_pure _ w
  | .number .. => exact replays_pure _ s
  | .infixOp .. => exact replays_pure _ s
  | .prefixOp .. => exact replays_pure _ s
  | .inlineSwitchOp .. => exact replays_pure _ s
  | .var .. => exact replays_pure _ s
  | .busCall .. => exact replays_pure _ s
  | .anonymousComp .. => exact replays_pure _ s
  | .arrayInLine .. => exact replays_pure _ s
  | .tuple .. => exact replays_pure _ s
  | .uniformArray .. => exact replays_pure _ s

theorem replays_construct (h : ReplaysNames table specialize) (shapes : Shapes) (constants : Constants)
    (rhe : Expression) :
    Replays table (construct attempt specialize shapes constants rhe)
      (construct attempt (tableName table) shapes constants rhe) := by
  refine fun s => replaysAt_get (ReplaysAt.ite (fun hnone => ?_) fun _ => replays_pure _ s)
  exact replays_call h (Option.isNone_iff_eq_none.mp hnone) shapes constants rhe

theorem replays_substitution (h : ReplaysNames table specialize) (resolve : Bool) (var : String)
    (access : List Access) (op : AssignOp) (rhe : Expression) (shapes : Shapes) (constants : Constants) :
    Replays table (substitution attempt resolve specialize var access op rhe shapes constants)
      (substitution attempt resolve (tableName table) var access op rhe shapes constants) := by
  refine (replays_prepared _).bind fun rhe' => ?_
  refine (replays_construct h shapes constants rhe').bind fun rhe'' => ?_
  exact (replays_prepared _).bind fun _ => replays_pure _

theorem replays_blockStatements
    (h : ∀ stmt shapes constants, Replays table (walk stmt shapes constants) (walk' stmt shapes constants))
    (stmts : List Statement) (shapes : Shapes) (constants : Constants)
    (shadowed : Saved String ConstantValue) :
    Replays table (blockStatements walk stmts shapes constants shadowed)
      (blockStatements walk' stmts shapes constants shadowed) := by
  induction stmts generalizing shapes constants shadowed with
  | nil => exact replays_pure _
  | cons stmt stmts ih =>
    refine (h stmt shapes constants).bind fun r => ?_
    exact (ih r.2.1 r.2.2 _).bind fun _ => replays_pure _

theorem replays_initializations
    (h : ∀ stmt shapes constants, Replays table (walk stmt shapes constants) (walk' stmt shapes constants))
    (stmts : List Statement) (shapes : Shapes) (constants : Constants) :
    Replays table (initializations walk stmts shapes constants)
      (initializations walk' stmts shapes constants) := by
  induction stmts generalizing shapes constants with
  | nil => exact replays_pure _
  | cons stmt stmts ih =>
    refine (h stmt shapes constants).bind fun r => ?_
    exact (ih r.2.1 r.2.2).bind fun _ => replays_pure _

theorem replays_iterations
    (h : ∀ stmt shapes constants, Replays table (walk stmt shapes constants) (walk' stmt shapes constants))
    (cond : Expression) (body : Statement) (shapes : Shapes) (rounds : ℕ) (constants : Constants) :
    Replays table (iterations attempt walk cond body shapes rounds constants)
      (iterations attempt walk' cond body shapes rounds constants) := by
  induction rounds generalizing constants with
  | zero => exact replays_interrupt _
  | succ rounds ih =>
    refine (replays_prepared _).bind fun condition => ?_
    cases condition with
    | none => exact replays_interrupt _
    | some condition =>
      refine fun s => ReplaysAt.ite (fun _ => replays_pure _ s) fun _ => ?_
      refine ((h _ shapes constants).bind fun r => ?_) s
      exact (ih r.2.2).bind fun _ => replays_pure _

theorem replays_loopBody
    (h : ∀ stmt shapes constants, Replays table (walk stmt shapes constants) (walk' stmt shapes constants))
    (info : Meta) (cond : Expression) (body : Statement) (shapes : Shapes) (constants : Constants) :
    Replays table (loopBody walk info cond body shapes constants)
      (loopBody walk' info cond body shapes constants) :=
  (h body shapes _).bind fun _ => replays_pure _

theorem probe_run (stmt : Statement) (shapes : Shapes) (constants : Constants) :
    (probe walk stmt shapes constants).run s =
      match (walk stmt shapes constants).run (s.withBudget maxLoopSteps) with
      | .ok ((expanded, _), after) => .ok (some expanded, { after with loopBudget := none })
      | .error .unresolvedLoop => .ok (none, s)
      | .error interruption => .error interruption := rfl

/-- A probe ends as the speculative walk does, and that one makes no entry. -/
theorem replays_probe
    (h : ∀ stmt shapes constants, Replays table (walk stmt shapes constants) (walk' stmt shapes constants))
    (hs : s.loopBudget = none) (stmt : Statement) (shapes : Shapes) (constants : Constants) :
    ReplaysAt table s (probe walk stmt shapes constants) (probe walk' stmt shapes constants) := by
  have hwalk := h stmt shapes constants (s.withBudget maxLoopSteps)
  have hbudget : (s.withBudget maxLoopSteps).loopBudget.isSome = true := rfl
  -- How the probe ends.
  have hends : ∀ r t, (probe walk stmt shapes constants).run s = .ok (r, t) →
      (∃ rest after expanded,
        (walk stmt shapes constants).run (s.withBudget maxLoopSteps) = .ok ((expanded, rest), after) ∧
        r = some expanded ∧ t = { after with loopBudget := none }) ∨
      ((walk stmt shapes constants).run (s.withBudget maxLoopSteps) = .error .unresolvedLoop ∧
        r = none ∧ t = s) := by
    intro r t hrun
    rw [probe_run] at hrun
    split at hrun
    · next expanded rest after hbody =>
      cases hrun
      exact Or.inl ⟨_, _, _, hbody, rfl, rfl⟩
    · next hbody =>
      cases hrun
      exact Or.inr ⟨hbody, rfl, rfl⟩
    · cases hrun
  have hsame : ∀ r t, (probe walk stmt shapes constants).run s = .ok (r, t) →
      t.specializations = s.specializations ∧ t.loopBudget = none := by
    intro r t hrun
    rcases hends r t hrun with ⟨rest, after, expanded, hbody, -, rfl⟩ | ⟨-, -, rfl⟩
    · exact ⟨hwalk.probing _ after hbody hbudget, rfl⟩
    · exact ⟨rfl, hs⟩
  refine
    { extended := fun r t hrun => by rw [(hsame r t hrun).1]; exact Extended.refl _
      budget := fun r t hrun => by rw [(hsame r t hrun).2, hs]
      probing := fun r t hrun _ => (hsame r t hrun).1
      ok := fun r t hrun htable => ?_
      error := fun e _ hprobe => by rw [hs] at hprobe; cases hprobe }
  rw [(hsame r t hrun).1] at htable
  rw [probe_run]
  rcases hends r t hrun with ⟨rest, after, expanded, hbody, rfl, rfl⟩ | ⟨hbody, rfl, hbefore⟩
  · have hafter : Extended after.specializations table := by
      rw [hwalk.probing _ _ hbody hbudget]
      exact htable
    have hreplayed := hwalk.ok _ _ hbody hafter
    change (walk' stmt shapes constants).run ((Preparation.view s).withBudget maxLoopSteps) = _ at hreplayed
    rw [hreplayed]
    rfl
  · have hreplayed := hwalk.error _ hbody hbudget htable
    change (walk' stmt shapes constants).run ((Preparation.view s).withBudget maxLoopSteps) = _ at hreplayed
    rw [hreplayed, hbefore]

/-- A walk through a template yields what the walk yields that looks the names up. -/
theorem replays_statement (attempt : Attempt) (h : ReplaysNames table specialize) (resolve : Bool)
    (fuel : ℕ) (stmt : Statement) (shapes : Shapes) (constants : Constants) :
    Replays table (statement attempt specialize resolve fuel stmt shapes constants)
      (statement attempt (tableName table) resolve fuel stmt shapes constants) := by
  induction fuel generalizing stmt shapes constants with
  | zero => exact replays_interrupt _
  | succ fuel ih =>
    refine replays_visit.bind fun _ => ?_
    cases stmt with
    | block info stmts =>
      dsimp only
      cases hwrapped : wrapped? stmts with
      | some inner => exact (ih inner shapes constants).bind fun _ => replays_pure _
      | none => exact (replays_blockStatements ih stmts shapes constants ∅).bind fun _ => replays_pure _
    | initializationBlock info xtype inits =>
      exact (replays_initializations ih inits shapes constants).bind fun _ => replays_pure _
    | declaration info xtype name dimensions isConstant isAnonymous =>
      exact (replays_prepared _).bind fun _ => replays_pure _
    | substitution info var access op rhe =>
      exact (replays_substitution h resolve var access op rhe shapes constants).bind fun _ =>
        replays_pure _
    | ifThenElse info cond ifCase elseCase =>
      refine (replays_prepared _).bind fun condition => ?_
      cases condition with
      | some condition => exact ih _ shapes constants
      | none =>
        refine (ih ifCase shapes constants).bind fun r => ?_
        cases elseCase with
        | none => exact replays_pure _
        | some elseCase => exact (ih elseCase shapes constants).bind fun _ => replays_pure _
    | whileStmt info cond body =>
      intro s
      refine replaysAt_get (ReplaysAt.ite (fun _ => ?_) fun _ =>
        replays_loopBody ih info cond body shapes constants s)
      have hview : s.view.loopBudget = s.loopBudget := rfl
      rw [hview]
      cases hs : s.loopBudget with
      | some n =>
        exact ((replays_iterations ih cond body shapes fuel constants).bind fun _ => replays_pure _) s
      | none =>
        refine (replays_probe ih hs _ shapes constants).bind fun expanded t _ => ?_
        cases expanded with
        | some expanded => exact ih expanded shapes constants t
        | none => exact replays_loopBody ih info cond body shapes constants t
    | _ => exact replays_pure _

end Walks

end Circom.LlzkBackend
