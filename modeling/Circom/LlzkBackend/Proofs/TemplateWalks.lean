import Circom.LlzkBackend.TemplateArrays
import Circom.Lib.Outcomes

/-!
# Walks through a template

What a walk through the statements of a template does to the preparation, while a loop is expanded and
otherwise, and which fuel suffices for it.
-/

namespace Circom.LlzkBackend

open Circom.Ast
open Circom.Lib (Ensures HashMap Saved bind_eq_ok ensures_get_bind ensures_lift ensures_pure ensures_set
  ensures_throw)

variable {attempt : Attempt} {specialize : Specialization → Prepares String} {s : Preparation}
  {E : Interruption → Prop}

variable {constants : Constants} {args : List Expression} {stmts : List Statement} {fuel n : ℕ}

/-! ## Fuel -/

mutual

/-- Fuel that suffices for a walk. An `if` with a known condition is replaced by a block first, and a loop by
what its expansion yields. -/
def walkFuel : Statement → ℕ
  | .block _ stmts => 1 + walkFuels stmts
  | .initializationBlock _ _ inits => 1 + walkFuels inits
  | .ifThenElse _ _ ifCase none => 2 + walkFuel ifCase
  | .ifThenElse _ _ ifCase (some elseCase) => 2 + max (walkFuel ifCase) (walkFuel elseCase)
  | .whileStmt _ _ body => 1 + max (2 * maxLoopSteps) (walkFuel body)
  | _ => 1

def walkFuels : List Statement → ℕ
  | [] => 0
  | stmt :: stmts => max (walkFuel stmt) (walkFuels stmts)

end

theorem walkFuels_le : walkFuels stmts ≤ n ↔ ∀ stmt ∈ stmts, walkFuel stmt ≤ n := by
  induction stmts with
  | nil => exact ⟨fun _ _ h => (by cases h), fun _ => Nat.zero_le n⟩
  | cons stmt stmts ih => rw [walkFuels, Nat.max_le, ih, List.forall_mem_cons]

theorem walkFuel_pos (stmt : Statement) : 1 ≤ walkFuel stmt := by
  cases stmt with
  | ifThenElse info cond ifCase elseCase =>
    cases elseCase <;> rw [walkFuel] <;> omega
  | whileStmt info cond body =>
    rw [walkFuel]
    omega
  | initializationBlock info xtype inits =>
    rw [walkFuel]
    omega
  | block info stmts =>
    rw [walkFuel]
    omega
  | _ => exact Nat.le_refl 1

theorem wrapped?_eq_some {inner : Statement} (h : wrapped? stmts = some inner) : stmts = [inner] := by
  unfold wrapped? at h
  split at h
  · exact congrArg (fun stmt => [stmt]) (Option.some.inj h)
  · exact congrArg (fun stmt => [stmt]) (Option.some.inj h)
  · cases h

/-! ## Steps -/

theorem ensures_prepared {α : Type} {result : Except Failure α} {Q : α → Preparation → Prop}
    (hok : ∀ a, result = .ok a → Q a s) (hfailed : ∀ failure, E (.failed failure)) :
    Ensures (prepared result) s Q E := by
  refine ensures_lift (fun a ha => ?_) fun e he => ?_
  · cases result with
    | error failure => cases ha
    | ok b =>
      cases ha
      exact hok a rfl
  · cases result with
    | error failure =>
      cases he
      exact hfailed failure
    | ok b => cases he

theorem ensures_visit_none (h : s.loopBudget = none) {Q : Unit → Preparation → Prop} (hQ : Q () s) :
    Ensures visit s Q E := by
  refine ensures_get_bind ?_
  rw [h]
  exact ensures_pure hQ

/-- A preparation in which some visits are left. -/
def Preparation.withBudget (s : Preparation) (remaining : ℕ) : Preparation :=
  { s with loopBudget := some remaining }

theorem ensures_visit_some {Q : Unit → Preparation → Prop} (hE : E .unresolvedLoop)
    (hQ : ∀ m, n = m + 1 → Q () (s.withBudget m)) : Ensures visit (s.withBudget n) Q E := by
  refine ensures_get_bind ?_
  cases n with
  | zero => exact ensures_throw hE
  | succ m => exact ensures_set (hQ m rfl)

section Lists

variable {walk : Statement → Shapes → Constants → Prepares Walked} {P : Preparation → Prop}
  {R : Statement → Prop}

/-- What every statement of a block keeps, the block keeps. -/
theorem ensures_blockStatements
    (h : ∀ stmt ∈ stmts, ∀ shapes constants s, P s → Ensures (walk stmt shapes constants) s (fun r t => R r.1 ∧ P t) E)
    (hs : P s) (shapes : Shapes) (constants : Constants) (shadowed : Saved String ConstantValue) :
    Ensures (blockStatements walk stmts shapes constants shadowed) s
      (fun r t => (∀ stmt ∈ r.1, R stmt) ∧ P t) E := by
  induction stmts generalizing s shapes constants shadowed with
  | nil => exact ensures_pure ⟨fun _ h => (by cases h), hs⟩
  | cons stmt stmts ih =>
    refine (h stmt List.mem_cons_self shapes constants s hs).bind fun r t hr => ?_
    obtain ⟨stmt', shapes', constants'⟩ := r
    refine (ih (fun stmt hstmt => h stmt (List.mem_cons_of_mem _ hstmt)) hr.2 shapes' constants' _).bind
      fun rs t' hrs => ensures_pure ⟨?_, hrs.2⟩
    exact List.forall_mem_cons.mpr ⟨hr.1, hrs.1⟩

theorem ensures_initializations
    (h : ∀ stmt ∈ stmts, ∀ shapes constants s, P s → Ensures (walk stmt shapes constants) s (fun r t => R r.1 ∧ P t) E)
    (hs : P s) (shapes : Shapes) (constants : Constants) :
    Ensures (initializations walk stmts shapes constants) s (fun r t => (∀ stmt ∈ r.1, R stmt) ∧ P t) E := by
  induction stmts generalizing s shapes constants with
  | nil => exact ensures_pure ⟨fun _ h => (by cases h), hs⟩
  | cons stmt stmts ih =>
    refine (h stmt List.mem_cons_self shapes constants s hs).bind fun r t hr => ?_
    obtain ⟨stmt', shapes', constants'⟩ := r
    refine (ih (fun stmt hstmt => h stmt (List.mem_cons_of_mem _ hstmt)) hr.2 shapes' constants').bind
      fun rs t' hrs => ensures_pure ⟨?_, hrs.2⟩
    exact List.forall_mem_cons.mpr ⟨hr.1, hrs.1⟩

end Lists

/-! ## Expanding a loop -/

/-- A walk that expands loops only spends visits. Its result has no loop, so that a second walk needs no more
fuel than there were visits. -/
def Spends (s : Preparation) (n : ℕ) (r : Walked) (t : Preparation) : Prop :=
  walkFuel r.1 ≤ 2 * n ∧ ∃ m < n, t = s.withBudget m

/-- The errors of such a walk: it constructs nothing, and is out of fuel only if it has more visits left. -/
inductive ProbeError (fuel n : ℕ) : Interruption → Prop
  | unresolvedLoop : ProbeError fuel n .unresolvedLoop
  | failed (failure : Failure) : ProbeError fuel n (.failed failure)
  | outOfFuel (h : fuel ≤ n) : ProbeError fuel n .outOfFuel

theorem ProbeError.mono {fuel' n' : ℕ} {e : Interruption} (h : ProbeError fuel n e)
    (hle : fuel ≤ n → fuel' ≤ n') : ProbeError fuel' n' e := by
  cases h with
  | unresolvedLoop => exact .unresolvedLoop
  | failed failure => exact .failed failure
  | outOfFuel h => exact .outOfFuel (hle h)

/-- What is left of the visits when a sequence of statements is walked. -/
def HasSpent (s : Preparation) (n : ℕ) (t : Preparation) : Prop := ∃ m ≤ n, t = s.withBudget m

/-- Every iteration spends a visit. -/
theorem ensures_iterations {walk : Statement → Shapes → Constants → Prepares Walked} {cond : Expression}
    {body : Statement} (shapes : Shapes)
    (h : ∀ m ≤ n, ∀ stmt shapes constants, Ensures (walk stmt shapes constants) (s.withBudget m) (Spends s m) (ProbeError fuel m))
    (rounds : ℕ) (hle : rounds ≤ fuel) (constants : Constants) :
    Ensures (iterations attempt walk cond body shapes rounds constants) (s.withBudget n)
      (fun r t => (∀ stmt ∈ r.1, walkFuel stmt ≤ 2 * n) ∧ HasSpent s n t) (ProbeError rounds n) := by
  induction rounds generalizing n constants with
  | zero => exact ensures_throw (.outOfFuel (Nat.zero_le n))
  | succ rounds ih =>
    refine Ensures.bind (P := fun _ t => t = s.withBudget n)
      (ensures_prepared (fun _ _ => rfl) .failed) ?_
    rintro condition _ rfl
    cases condition with
    | none => exact ensures_throw .unresolvedLoop
    | some condition =>
      refine Ensures.ite
        (fun _ => ensures_pure ⟨fun _ h => (by cases h), n, Nat.le_refl n, rfl⟩) fun _ => ?_
      refine Ensures.bind ((h n (Nat.le_refl n) _ shapes constants).mono (fun _ _ hr => hr)
        fun e he => he.mono fun hfuel => Nat.le_trans hle hfuel) ?_
      rintro ⟨stmt, shapes', constants'⟩ _ ⟨hstmt, m, hm, rfl⟩
      refine Ensures.bind ((ih (fun k hk => h k (Nat.le_trans hk hm.le)) (Nat.le_of_succ_le hle)
        constants').mono (fun _ _ hr => hr) fun e he => he.mono fun h => Nat.lt_of_le_of_lt h hm) ?_
      rintro ⟨stmts, constants''⟩ _ ⟨hstmts, k, hk, rfl⟩
      refine ensures_pure ⟨List.forall_mem_cons.mpr ⟨hstmt, fun stmt hmem => ?_⟩, k, by omega, rfl⟩
      have := hstmts stmt hmem
      omega

theorem ensures_substitution_probe (var : String) (access : List Access) (op : AssignOp) (rhe : Expression)
    (shapes : Shapes) (constants : Constants) (resolve : Bool) (hE : ∀ failure, E (.failed failure)) :
    Ensures (substitution attempt resolve specialize var access op rhe shapes constants)
      (s.withBudget n) (fun _ t => t = s.withBudget n) E := by
  refine Ensures.bind (P := fun _ t => t = s.withBudget n) (ensures_prepared (fun _ _ => rfl) hE) ?_
  rintro rhe' _ rfl
  refine Ensures.bind (P := fun _ t => t = s.withBudget n) (ensures_get_bind (ensures_pure rfl)) ?_
  rintro rhe'' _ rfl
  refine Ensures.bind (P := fun _ t => t = s.withBudget n) (ensures_prepared (fun _ _ => rfl) hE) ?_
  rintro constants' _ rfl
  exact ensures_pure rfl

/-- The sequences of a walk that expands loops: their statements spend what they visit. -/
theorem sequence_spends {walk : Statement → Shapes → Constants → Prepares Walked}
    (h : ∀ m ≤ n, ∀ stmt shapes constants, Ensures (walk stmt shapes constants) (s.withBudget m) (Spends s m) (ProbeError fuel m))
    (stmt : Statement) (shapes : Shapes) (constants : Constants) (t : Preparation) (ht : HasSpent s n t) :
    Ensures (walk stmt shapes constants) t (fun r t => walkFuel r.1 ≤ 2 * n ∧ HasSpent s n t)
      (ProbeError fuel n) := by
  obtain ⟨m, hm, rfl⟩ := ht
  refine (h m hm stmt shapes constants).mono (fun r t hr => ?_) fun e he =>
    he.mono fun hfuel => Nat.le_trans hfuel hm
  obtain ⟨hfuel, k, hk, rfl⟩ := hr
  exact ⟨by omega, k, by omega, rfl⟩

/-- Every speculative walk stops within its budget of visits, and changes nothing else. -/
theorem statement_probe (attempt : Attempt) (specialize : Specialization → Prepares String)
    (s : Preparation) (fuel n : ℕ) (stmt : Statement) (shapes : Shapes) (constants : Constants) :
    Ensures (statement attempt specialize true fuel stmt shapes constants) (s.withBudget n)
      (Spends s n) (ProbeError fuel n) := by
  induction fuel generalizing n stmt shapes constants with
  | zero => exact ensures_throw (.outOfFuel (Nat.zero_le n))
  | succ fuel ih =>
    refine Ensures.bind (P := fun _ t => ∃ m, n = m + 1 ∧ t = s.withBudget m)
      (ensures_visit_some .unresolvedLoop fun m hm => ⟨m, hm, rfl⟩) ?_
    rintro _ _ ⟨m, rfl, rfl⟩
    have hstep : ∀ k ≤ m, ∀ stmt shapes constants,
        Ensures (statement attempt specialize true fuel stmt shapes constants) (s.withBudget k)
          (Spends s k) (ProbeError fuel k) := fun k _ => ih k
    have hsucc : ∀ {e : Interruption}, ProbeError fuel m e → ProbeError (fuel + 1) (m + 1) e :=
      fun he => he.mono Nat.succ_le_succ
    have hrest : ∀ {r : Walked} {t : Preparation}, Spends s m r t → Spends s (m + 1) r t := by
      rintro r t ⟨hfuel, k, hk, rfl⟩
      exact ⟨by omega, k, by omega, rfl⟩
    have hleaf : 1 ≤ 2 * (m + 1) := by omega
    cases stmt with
    | block info stmts =>
      dsimp only
      cases hwrapped : wrapped? stmts with
      | some inner =>
        refine ((ih m inner shapes constants).mono (fun _ _ hr => hr) fun _ => hsucc).bind ?_
        rintro ⟨inner', shapes', constants'⟩ _ ⟨hfuel, k, hk, rfl⟩
        refine ensures_pure ⟨?_, k, by omega, rfl⟩
        dsimp only at hfuel ⊢
        rw [walkFuel, walkFuels, walkFuels, Nat.max_zero]
        omega
      | none =>
        refine ((ensures_blockStatements (R := fun stmt => walkFuel stmt ≤ 2 * m)
          (fun stmt _ => sequence_spends hstep stmt) ⟨m, Nat.le_refl m, rfl⟩ shapes constants
          ∅).mono (fun _ _ hr => hr) fun _ => hsucc).bind ?_
        rintro ⟨stmts', nested, shadowed⟩ _ ⟨hstmts, k, hk, rfl⟩
        refine ensures_pure ⟨?_, k, by omega, rfl⟩
        have hle : walkFuels stmts' ≤ 2 * m := walkFuels_le.mpr hstmts
        dsimp only
        rw [walkFuel]
        omega
    | initializationBlock info xtype inits =>
      refine ((ensures_initializations (R := fun stmt => walkFuel stmt ≤ 2 * m)
        (fun stmt _ => sequence_spends hstep stmt) ⟨m, Nat.le_refl m, rfl⟩ shapes constants).mono
        (fun _ _ hr => hr) fun _ => hsucc).bind ?_
      rintro ⟨inits', shapes', constants'⟩ _ ⟨hstmts, k, hk, rfl⟩
      refine ensures_pure ⟨?_, k, by omega, rfl⟩
      have hle : walkFuels inits' ≤ 2 * m := walkFuels_le.mpr hstmts
      rw [walkFuel]
      omega
    | declaration info xtype name dimensions isConstant isAnonymous =>
      refine Ensures.bind (P := fun _ t => t = s.withBudget m)
        (ensures_prepared (fun _ _ => rfl) .failed) ?_
      rintro ⟨dimensions', shape⟩ _ rfl
      exact ensures_pure ⟨hleaf, m, by omega, rfl⟩
    | substitution info var access op rhe =>
      refine (ensures_substitution_probe var access op rhe shapes constants true .failed).bind ?_
      rintro ⟨rhe', constants'⟩ _ rfl
      exact ensures_pure ⟨hleaf, m, by omega, rfl⟩
    | ifThenElse info cond ifCase elseCase =>
      refine Ensures.bind (P := fun _ t => t = s.withBudget m)
        (ensures_prepared (fun _ _ => rfl) .failed) ?_
      rintro condition _ rfl
      cases condition with
      | some condition =>
        exact (ih m _ shapes constants).mono (fun _ _ => hrest) fun _ => hsucc
      | none =>
        refine ((ih m ifCase shapes constants).mono (fun _ _ hr => hr) fun _ => hsucc).bind ?_
        rintro ⟨ifCase', shapes', constants'⟩ _ ⟨hif, k, hk, rfl⟩
        cases elseCase with
        | none =>
          refine ensures_pure ⟨?_, k, by omega, rfl⟩
          rw [walkFuel]
          dsimp only at hif
          omega
        | some elseCase =>
          refine ((ih k elseCase shapes constants).mono (fun _ _ hr => hr) fun e he =>
            he.mono fun hfuel => (by omega)).bind ?_
          rintro ⟨elseCase', shapes'', constants''⟩ _ ⟨helse, j, hj, rfl⟩
          refine ensures_pure ⟨?_, j, by omega, rfl⟩
          rw [walkFuel]
          dsimp only at hif helse
          omega
    | whileStmt info cond body =>
      refine ensures_get_bind ?_
      refine Ensures.ite (fun _ => ?_) fun h => absurd rfl h
      refine ((ensures_iterations shapes hstep fuel (Nat.le_refl fuel) constants).mono
        (fun _ _ hr => hr) fun _ => hsucc).bind ?_
      rintro ⟨stmts, constants'⟩ _ ⟨hstmts, k, hk, rfl⟩
      refine ensures_pure ⟨?_, k, by omega, rfl⟩
      have hle : walkFuels stmts ≤ 2 * m := walkFuels_le.mpr hstmts
      rw [walkFuel]
      omega
    | _ => exact ensures_pure ⟨hleaf, m, by omega, rfl⟩

/-! ## Constructors -/

/-- What is known of a specialization that a constructor asks for while others are under way. -/
structure Requested (attempt : Attempt) (active : Finset Specialization) (key : Specialization) :
    Prop where
  original : key.id ∈ attempt.originals
  lengths : key.values.length = key.shapes.length
  nonempty : ∀ shape, some shape ∈ key.shapes → shape ≠ []
  unbound : key.id ∉ attempt.expanded → ∀ value ∈ key.values, value = none
  fresh : key.id ∉ attempt.expanded → ¬ repeatsWithArrays key.id key.shapes active

theorem length_of_mapM {α β : Type} {f : α → Except Failure β} {l : List α} {l' : List β}
    (h : l.mapM f = .ok l') : l'.length = l.length := by
  induction l generalizing l' with
  | nil =>
    cases h
    rfl
  | cons a l ih =>
    rw [List.mapM_cons] at h
    obtain ⟨b, -, h⟩ := bind_eq_ok h
    obtain ⟨bs, hbs, h⟩ := bind_eq_ok h
    cases h
    rw [List.length_cons, List.length_cons, ih hbs]

theorem mem_of_mapM {α β : Type} {f : α → Except Failure β} {l : List α} {l' : List β}
    (h : l.mapM f = .ok l') {b : β} (hb : b ∈ l') : ∃ a ∈ l, f a = .ok b := by
  induction l generalizing l' with
  | nil =>
    cases h
    cases hb
  | cons a l ih =>
    rw [List.mapM_cons] at h
    obtain ⟨b', hb', h⟩ := bind_eq_ok h
    obtain ⟨bs, hbs, h⟩ := bind_eq_ok h
    cases h
    rcases List.mem_cons.mp hb with rfl | hb
    · exact ⟨a, List.mem_cons_self, hb'⟩
    · obtain ⟨c, hc, hfc⟩ := ih hbs hb
      exact ⟨c, List.mem_cons_of_mem _ hc, hfc⟩

theorem parameterShapes_nonempty {shapes : Shapes}
    {result : List (Option (List ℕ))} (h : parameterShapes attempt shapes constants args = .ok result)
    {shape : List ℕ} (hshape : some shape ∈ result) : shape ≠ [] := by
  obtain ⟨arg, -, harg⟩ := mem_of_mapM h hshape
  obtain ⟨o, -, ho⟩ := bind_eq_ok harg
  have hfilter := (Option.filter_eq_some_iff.mp (Except.ok.inj ho)).2
  rintro rfl
  cases hfilter

theorem length_parameterValues {id : String}
    {shapes : List (Option (List ℕ))} {values : List (Option ConstantValue)}
    (h : parameterValues attempt id constants args shapes = .ok values)
    (hlength : shapes.length = args.length) : values.length = shapes.length := by
  induction args generalizing shapes values with
  | nil =>
    rw [List.length_eq_zero_iff.mp hlength] at h ⊢
    cases h
    rfl
  | cons arg args ih =>
    cases shapes with
    | nil => cases hlength
    | cons shape shapes =>
      obtain ⟨value, -, h⟩ := bind_eq_ok h
      obtain ⟨others, hothers, h⟩ := bind_eq_ok h
      cases h
      rw [List.length_cons, List.length_cons, ih hothers (Nat.succ.inj hlength)]

theorem parameterValues_unbound {id : String} (hid : id ∉ attempt.expanded) {shapes : List (Option (List ℕ))}
    {values : List (Option ConstantValue)} (h : parameterValues attempt id constants args shapes = .ok values) :
    ∀ value ∈ values, value = none := by
  induction args generalizing shapes values with
  | nil =>
    cases h
    exact fun _ h => by cases h
  | cons arg args ih =>
    cases shapes with
    | nil =>
      cases h
      exact fun _ h => by cases h
    | cons shape shapes =>
      obtain ⟨value, hvalue, h⟩ := bind_eq_ok h
      obtain ⟨others, hothers, h⟩ := bind_eq_ok h
      cases h
      rw [parameterValue, if_pos hid] at hvalue
      exact List.forall_mem_cons.mpr ⟨(Except.ok.inj hvalue).symm, ih hothers⟩

/-- Which errors a walk may end with whatever its fuel is. -/
structure Admits (attempt : Attempt) (E : Interruption → Prop) : Prop where
  failed (failure : Failure) : E (.failed failure)
  expandRecursion (id : String) (horiginal : id ∈ attempt.originals) (hid : id ∉ attempt.expanded) :
    E (.expandRecursion id)

/-- What `specialize` keeps. -/
def SpecializeKeeps (attempt : Attempt) (specialize : Specialization → Prepares String)
    (P : Preparation → Prop) (E : Interruption → Prop) : Prop :=
  ∀ key s, P s → Requested attempt s.active key → Ensures (specialize key) s (fun _ t => P t) E

theorem ensures_call {P : Preparation → Prop} (hE : Admits attempt E)
    (hspecialize : SpecializeKeeps attempt specialize P E) (hs : P s) (shapes : Shapes)
    (constants : Constants) (rhe : Expression) :
    Ensures (call attempt specialize shapes constants rhe) s (fun _ t => P t) E := by
  match rhe with
  | .parallelOp info rhe =>
    rw [call]
    exact (ensures_call hE hspecialize hs shapes constants rhe).bind fun _ _ ht => ensures_pure ht
  | .call info id args =>
    rw [call]
    refine Ensures.ite (fun _ => ensures_pure hs) fun hid => ?_
    refine Ensures.bind (P := fun result t =>
      parameterShapes attempt shapes constants args = .ok result ∧ t = s)
      (ensures_prepared (fun _ h => ⟨h, rfl⟩) hE.failed) ?_
    rintro keyShapes t ⟨hshapes, rfl⟩
    refine ensures_get_bind (Ensures.ite (fun hrepeats => ?_) fun hrepeats => ?_)
    · exact ensures_throw (hE.expandRecursion id (not_not.mp hid) hrepeats.1)
    refine Ensures.bind (P := fun result t' =>
      parameterValues attempt id constants args keyShapes = .ok result ∧ t' = t)
      (ensures_prepared (fun _ h => ⟨h, rfl⟩) hE.failed) ?_
    rintro values t' ⟨hvalues, rfl⟩
    have hrequested : Requested attempt t'.active ⟨id, keyShapes, values⟩ :=
      { original := not_not.mp hid
        lengths := length_parameterValues hvalues (length_of_mapM hshapes)
        nonempty := fun shape hshape => parameterShapes_nonempty hshapes hshape
        unbound := fun hexpanded => parameterValues_unbound hexpanded hvalues
        fresh := fun hexpanded hrepeated => hrepeats ⟨hexpanded, hrepeated⟩ }
    refine (hspecialize _ t' hs hrequested).bind fun name u hu => ?_
    refine Ensures.bind (P := fun _ t => P t) (ensures_prepared (fun _ _ => hu) hE.failed) ?_
    exact fun _ _ ht => ensures_pure ht
  | .number .. => exact ensures_pure hs
  | .infixOp .. => exact ensures_pure hs
  | .prefixOp .. => exact ensures_pure hs
  | .inlineSwitchOp .. => exact ensures_pure hs
  | .var .. => exact ensures_pure hs
  | .busCall .. => exact ensures_pure hs
  | .anonymousComp .. => exact ensures_pure hs
  | .arrayInLine .. => exact ensures_pure hs
  | .tuple .. => exact ensures_pure hs
  | .uniformArray .. => exact ensures_pure hs

theorem ensures_substitution {P : Preparation → Prop} (hE : Admits attempt E)
    (hspecialize : SpecializeKeeps attempt specialize P E) (hs : P s) (hnone : s.loopBudget = none)
    (resolve : Bool) (var : String) (access : List Access) (op : AssignOp) (rhe : Expression)
    (shapes : Shapes) (constants : Constants) :
    Ensures (substitution attempt resolve specialize var access op rhe shapes constants) s
      (fun _ t => P t) E := by
  refine Ensures.bind (P := fun _ t => t = s) (ensures_prepared (fun _ _ => rfl) hE.failed) ?_
  rintro rhe' _ rfl
  refine Ensures.bind (P := fun _ t => P t) (ensures_get_bind ?_) fun rhe'' t ht => ?_
  · rw [hnone]
    exact ensures_call hE hspecialize hs shapes constants rhe'
  · refine Ensures.bind (P := fun _ t => P t) (ensures_prepared (fun _ _ => ht) hE.failed) ?_
    exact fun _ _ ht => ensures_pure ht

/-- A probe from a preparation without a budget leaves it as it was. -/
theorem ensures_probe (hE : Admits attempt E) (hnone : s.loopBudget = none) (hfuel : E .outOfFuel ∨ maxLoopSteps < fuel)
    (stmt : Statement) (shapes : Shapes) (constants : Constants) :
    Ensures (probe (statement attempt specialize true fuel) stmt shapes constants) s
      (fun r t => t = s ∧ ∀ expanded, r = some expanded → walkFuel expanded ≤ 2 * maxLoopSteps) E := by
  have h := statement_probe attempt specialize s fuel maxLoopSteps stmt shapes constants
  have hs : ({ s.withBudget maxLoopSteps with loopBudget := none } : Preparation) = s := by
    obtain ⟨_, _, _, _, _⟩ := s
    cases hnone
    rfl
  rw [Ensures] at h ⊢
  simp only [probe, StateT.run] at h ⊢
  rcases hrun : statement attempt specialize true fuel stmt shapes constants
    { s with loopBudget := some maxLoopSteps } with e | ⟨⟨expanded, rest⟩, after⟩
  · rw [Preparation.withBudget, hrun] at h
    cases h with
    | unresolvedLoop => exact ⟨rfl, fun _ h => by cases h⟩
    | failed failure => exact hE.failed failure
    | outOfFuel hle => exact hfuel.resolve_right (Nat.not_lt.mpr hle)
  · rw [Preparation.withBudget, hrun] at h
    obtain ⟨hwalk, m, -, rfl⟩ := h
    refine ⟨hs, fun expanded' h => ?_⟩
    cases h
    exact hwalk

/-- What the constructors of a template keep, a walk through it keeps, and its fuel suffices. -/
theorem ensures_statement {P : Preparation → Prop} (hE : Admits attempt E)
    (hnone : ∀ s, P s → s.loopBudget = none) (hspecialize : SpecializeKeeps attempt specialize P E)
    (resolve : Bool) (fuel : ℕ) (stmt : Statement) (hfuel : E .outOfFuel ∨ walkFuel stmt ≤ fuel)
    (shapes : Shapes) (constants : Constants) (s : Preparation) (hs : P s) :
    Ensures (statement attempt specialize resolve fuel stmt shapes constants) s (fun _ t => P t) E := by
  induction fuel generalizing stmt shapes constants s with
  | zero =>
    refine ensures_throw (hfuel.resolve_right fun hle => ?_)
    exact absurd (Nat.le_trans (walkFuel_pos stmt) hle) (Nat.not_succ_le_zero 0)
  | succ fuel ih =>
    refine Ensures.bind (P := fun _ t => t = s) (ensures_visit_none (hnone s hs) rfl) ?_
    rintro _ _ rfl
    have hlist : ∀ stmts : List Statement, (E .outOfFuel ∨ walkFuels stmts ≤ fuel) →
        ∀ stmt ∈ stmts, ∀ shapes constants t, P t →
        Ensures (statement attempt specialize resolve fuel stmt shapes constants) t
          (fun _ t => True ∧ P t) E := by
      intro stmts hle stmt hstmt shapes constants t ht
      refine (ih stmt (hle.imp_right fun hle => walkFuels_le.mp hle stmt hstmt) shapes constants t
        ht).imp fun _ _ h => ⟨trivial, h⟩
    have hloop : ∀ info cond body, (E .outOfFuel ∨ walkFuel body ≤ fuel) → ∀ shapes constants t, P t →
        Ensures (loopBody (statement attempt specialize resolve fuel) info cond body shapes constants) t
          (fun _ t => P t) E := by
      intro info cond body hle shapes constants t ht
      exact (ih body hle shapes _ t ht).bind fun _ _ h => ensures_pure h
    cases stmt with
    | block info stmts =>
      rw [walkFuel] at hfuel
      have hle : E .outOfFuel ∨ walkFuels stmts ≤ fuel := hfuel.imp_right fun h => by omega
      dsimp only
      cases hwrapped : wrapped? stmts with
      | some inner =>
        have hmem : inner ∈ stmts := by
          rw [wrapped?_eq_some hwrapped]
          exact List.mem_singleton_self inner
        refine (hlist stmts hle inner hmem shapes constants _ hs).bind fun r t h => ?_
        exact ensures_pure h.2
      | none =>
        refine (ensures_blockStatements (R := fun _ => True) (hlist stmts hle) hs shapes constants ∅).bind fun r t h => ?_
        exact ensures_pure h.2
    | initializationBlock info xtype inits =>
      rw [walkFuel] at hfuel
      have hle : E .outOfFuel ∨ walkFuels inits ≤ fuel := hfuel.imp_right fun h => by omega
      refine (ensures_initializations (R := fun _ => True) (hlist inits hle) hs shapes constants).bind fun r t h => ?_
      exact ensures_pure h.2
    | declaration info xtype name dimensions isConstant isAnonymous =>
      refine Ensures.bind (P := fun _ t => P t) (ensures_prepared (fun _ _ => hs) hE.failed) ?_
      exact fun _ _ h => ensures_pure h
    | substitution info var access op rhe =>
      refine (ensures_substitution hE hspecialize hs (hnone _ hs) resolve var access op rhe shapes
        constants).bind fun _ _ h => ensures_pure h
    | ifThenElse info cond ifCase elseCase =>
      refine Ensures.bind (P := fun _ t => P t) (ensures_prepared (fun _ _ => hs) hE.failed) ?_
      intro condition t ht
      cases condition with
      | some condition =>
        refine ih _ (hfuel.imp_right fun h => ?_) shapes constants t ht
        have hselected : walkFuels (if condition ≠ 0 then [ifCase] else elseCase.toList) + 2 ≤
            walkFuel (.ifThenElse info cond ifCase elseCase) := by
          cases elseCase <;> split_ifs <;> simp [walkFuel, walkFuels] <;> omega
        rw [walkFuel]
        omega
      | none =>
        cases elseCase with
        | none =>
          rw [walkFuel] at hfuel
          refine (ih ifCase (hfuel.imp_right fun h => by omega) shapes constants t ht).bind ?_
          exact fun _ _ h => ensures_pure h
        | some elseCase =>
          rw [walkFuel] at hfuel
          refine (ih ifCase (hfuel.imp_right fun h => by omega) shapes constants t ht).bind
            fun r t' ht' => ?_
          refine (ih elseCase (hfuel.imp_right fun h => by omega) shapes constants t' ht').bind ?_
          exact fun _ _ h => ensures_pure h
    | whileStmt info cond body =>
      rw [walkFuel] at hfuel
      have hle : E .outOfFuel ∨ walkFuel body ≤ fuel := hfuel.imp_right fun h => by omega
      have hmax : E .outOfFuel ∨ 2 * maxLoopSteps ≤ fuel := hfuel.imp_right fun h => by omega
      refine ensures_get_bind ?_
      cases resolve with
      | false => exact hloop info cond body hle shapes constants _ hs
      | true =>
        refine Ensures.ite (fun _ => ?_) fun h => absurd rfl h
        rw [hnone _ hs]
        refine (ensures_probe hE (hnone _ hs) (hmax.imp_right fun h => ?_) _ shapes constants).bind ?_
        · rw [maxLoopSteps] at h ⊢
          omega
        rintro expanded _ ⟨rfl, hexpanded⟩
        cases expanded with
        | some expanded =>
          exact ih expanded (hmax.imp_right fun h => Nat.le_trans (hexpanded _ rfl) h) shapes constants _ hs
        | none => exact hloop info cond body hle shapes constants _ hs
    | _ => exact ensures_pure hs

end Circom.LlzkBackend
