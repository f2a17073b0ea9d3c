import Circom.ConstraintGeneration.Execute

/-!
# The stack of unknown conditions

`conditions_state` is balanced in every run whose loops are regular: every loop evaluates its condition to true
exactly once and then to false, and is not left by a `return`. The entry of a loop is pushed once before it and
popped after every iteration that was entered, so that exactly these loops leave the stack as they find it. All
executors keep the stack if those one level below do, which gives the result by induction on the nesting.
-/

namespace Circom.ConstraintGeneration

open Circom.Ast
open Circom.Lib

variable {R V E S T D α β : Type}

/-- A loop evaluates its condition to true once and then to false, and no loop is left by a `return`. -/
def Event.Regular : Event → Prop
  | .evaluated iteration value => iteration = 0 ∧ value = some true ∨ iteration = 1 ∧ value = some false
  | .returned => False
  | _ => True

/-- A statement starts and ends with the entries of the conditionals and loops around it. -/
def Event.Balanced : Event → Prop
  | .reached enclosing conditions => conditions = enclosing
  | .left enclosing conditions => conditions = enclosing
  | _ => True

/-- From the stack `conditions`, in a run with regular loops: the statements are balanced, the stack is never
accessed below its bottom, and the end is as `Q` says about the value and the stack. -/
def Moves (conditions : Conditions) (x : Executes R α) (Q : α → Conditions → Prop) : Prop :=
  ∀ ⦃runtime : Runtime R⦄, runtime.conditionsState = conditions →
    Traced.Holds Event.Regular Event.Balanced x runtime (fun a after => Q a after.conditionsState)
      fun reason => reason ≠ .underflow

/-- The stack is afterwards again `conditions`. -/
def Keeps (conditions : Conditions) (x : Executes R α) : Prop :=
  Moves conditions x fun _ after => after = conditions

variable {conditions : Conditions}

/-! ## The runtime -/

theorem Moves.bind {x : Executes R α} {f : α → Executes R β} {P : α → Conditions → Prop}
    {Q : β → Conditions → Prop} (hx : Moves conditions x P) (hf : ∀ a after, P a after → Moves after (f a) Q) :
    Moves conditions (x >>= f) Q :=
  fun _ h => (hx h).bind fun a _ hP => hf a _ hP rfl

theorem Moves.imp {x : Executes R α} {P Q : α → Conditions → Prop} (hx : Moves conditions x P)
    (h : ∀ a after, P a after → Q a after) : Moves conditions x Q :=
  fun _ hruntime => (hx hruntime).imp fun a _ => h a _

theorem Moves.pure {a : α} {Q : α → Conditions → Prop} (h : Q a conditions) :
    Moves (R := R) conditions (Pure.pure a) Q := by
  intro runtime hruntime
  subst hruntime
  exact .silent rfl h

theorem Keeps.bind_moves {x : Executes R α} {f : α → Executes R β} {Q : β → Conditions → Prop}
    (hx : Keeps conditions x) (hf : ∀ a, Moves conditions (f a) Q) : Moves conditions (x >>= f) Q := by
  refine Moves.bind hx fun a after h => ?_
  subst h
  exact hf a

theorem Keeps.bind {x : Executes R α} {f : α → Executes R β} (hx : Keeps conditions x)
    (hf : ∀ a, Keeps conditions (f a)) : Keeps conditions (x >>= f) :=
  hx.bind_moves hf

theorem Keeps.pure (a : α) : Keeps (R := R) conditions (Pure.pure a) := Moves.pure rfl

theorem Keeps.fail {reason : Stop} (h : reason ≠ .underflow) :
    Keeps (α := α) (R := R) conditions (Traced.fail reason) :=
  fun _ _ => .fail h

theorem Keeps.panicked : Keeps (α := α) (R := R) conditions (Traced.fail (.fault .panicked)) :=
  .fail (by decide)

theorem keeps_unwrap (o : Option α) : Keeps (R := R) conditions (unwrap o) := by
  cases o with
  | none => exact .panicked
  | some a => exact .pure a

theorem keeps_leaf (part : Leaf R α) : Keeps conditions (leaf part) := by
  intro runtime hruntime hregular
  unfold leaf
  rcases part runtime.blockType runtime.rest with ⟨fault | a, rest⟩
  · exact ⟨fun _ he => (by cases he), nofun⟩
  · exact ⟨fun _ he => (by cases he), hruntime⟩

theorem keeps_getRest : Keeps (R := R) conditions getRest := fun _ h => .silent rfl h

theorem keeps_modifyRest (f : R → R) : Keeps conditions (modifyRest f) := fun _ h => .silent rfl h

theorem keeps_replaceBlockType (blockType : BlockType) : Keeps (R := R) conditions (replaceBlockType blockType) :=
  fun _ h => .silent rfl h

theorem moves_getConditions :
    Moves (R := R) conditions getConditions fun found after => found = conditions ∧ after = conditions :=
  fun _ h => .silent rfl ⟨h, h⟩

theorem moves_setConditions (after : Conditions) :
    Moves (R := R) conditions (setConditions after) fun _ found => found = after :=
  fun _ _ => .silent rfl rfl

theorem moves_pushCondition :
    Moves (R := R) conditions pushCondition fun entry after => after = conditions ++ [entry] :=
  fun runtime h => .silent rfl (by
    show runtime.conditionsState ++ [_] = conditions ++ [_]
    rw [h])

theorem moves_popCondition (entry : ℕ × Bool) :
    Moves (R := R) (conditions ++ [entry]) popCondition fun _ after => after = conditions :=
  fun runtime h => .silent rfl (by
    show runtime.conditionsState.dropLast = conditions
    rw [h, List.dropLast_concat])

theorem moves_negateLastCondition (entry : ℕ × Bool) :
    Moves (R := R) (conditions ++ [entry]) negateLastCondition
      fun _ after => after = conditions ++ [(entry.1, false)] := by
  refine moves_getConditions.bind fun found after h => ?_
  obtain ⟨rfl, rfl⟩ := h
  rw [List.getLast?_concat]
  refine (moves_setConditions _).imp fun _ _ h => ?_
  rw [h, List.dropLast_concat]

/-- What follows an event may use that it is regular. -/
theorem Moves.emit_bind {event : Event} {f : Unit → Executes R β} {Q : β → Conditions → Prop}
    (h : event.Regular → event.Balanced ∧ Moves conditions (f ()) Q) :
    Moves conditions (Traced.emit event >>= f) Q := by
  intro runtime hruntime
  refine Traced.Holds.bind (P := fun _ after => after = runtime ∧ event.Regular)
    (.emit fun hregular => ⟨(h hregular).1, rfl, hregular⟩) fun _ after hafter => ?_
  obtain ⟨rfl, hregular⟩ := hafter
  exact (h hregular).2 hruntime

theorem Keeps.ite {p : Prop} [Decidable p] {x y : Executes R α} (hx : Keeps conditions x)
    (hy : Keeps conditions y) : Keeps conditions (if p then x else y) := by
  by_cases hp : p
  · rw [if_pos hp]
    exact hx
  · rw [if_neg hp]
    exact hy

/-! ## Accesses, sequences and calls -/

/-- The executors one level below keep the stack, which is the one of the conditionals and loops around. -/
structure Executors.Keep (executors : Executors R V) : Prop where
  expression : ∀ (conditions : Conditions) (expr : Expression), Keeps conditions (executors.expression expr)
  statement : ∀ (conditions : Conditions) (stmt : Statement),
    Keeps conditions (executors.statement conditions stmt)
  busStatement : ∀ (conditions : Conditions) (stmt : Statement), Keeps conditions (executors.busStatement stmt)

variable {parts : Parts R V E S T D} {executors : Executors R V}

section

variable (hkeep : executors.Keep)

include hkeep

theorem keeps_executeSingles (exprs : List Expression) :
    Keeps conditions (executeSingles parts executors exprs) := by
  induction exprs with
  | nil => exact .pure _
  | cons expr exprs ih =>
    exact (hkeep.expression conditions expr).bind fun _ => (keeps_unwrap _).bind fun _ => ih.bind fun _ => .pure _

theorem keeps_treatAccessing (info : Meta) (access : List Access) :
    Keeps conditions (treatAccessing parts executors info access) := by
  unfold treatAccessing
  exact (keeps_executeSingles hkeep _).bind fun _ => (keeps_executeSingles hkeep _).bind fun _ =>
    (keeps_leaf _).bind fun _ => (keeps_leaf _).bind fun _ => .pure _

theorem keeps_treatAccessingBus (info : Meta) (groups : List (List Expression × Option String)) :
    Keeps conditions (treatAccessingBus parts executors info groups) := by
  induction groups with
  | nil => exact .pure _
  | cons group groups ih =>
    exact (keeps_executeSingles hkeep _).bind fun _ => (keeps_leaf _).bind fun _ => ih.bind fun _ => .pure _

theorem keeps_executeDelayedDeclarations (components : List (String × Meta × List Expression)) :
    Keeps conditions (executeDelayedDeclarations parts executors components) := by
  induction components with
  | nil => exact .pure _
  | cons component components ih =>
    exact (keeps_executeSingles hkeep _).bind fun _ => (keeps_leaf _).bind fun _ => ih

theorem keeps_executeSequenceOfStatements (isCompleteTemplate : Bool) (stmts : List Statement) (canBeSimplified : Bool) :
    Keeps conditions (executeSequenceOfStatements parts executors conditions isCompleteTemplate stmts canBeSimplified) := by
  induction stmts generalizing canBeSimplified with
  | nil =>
    unfold executeSequenceOfStatements
    cases isCompleteTemplate with
    | true =>
      exact (keeps_getRest.bind fun _ => keeps_executeDelayedDeclarations hkeep _).bind fun _ => .pure _
    | false => exact (Keeps.pure ()).bind fun _ => .pure _
  | cons stmt stmts ih =>
    refine (hkeep.statement conditions stmt).bind fun (value, canSimplify) => ?_
    cases value with
    | some value => exact .pure _
    | none => exact ih _

theorem keeps_executeSequenceOfBusStatements (stmts : List Statement) :
    Keeps conditions (executeSequenceOfBusStatements executors stmts) := by
  induction stmts with
  | nil => exact .pure _
  | cons stmt stmts ih => exact (hkeep.busStatement conditions stmt).bind fun _ => ih

/-- The stack of the caller is put back whatever the body has made of its own one. -/
theorem keeps_executeFunctionCall (id : String) : Keeps conditions (executeFunctionCall parts executors id) := by
  refine moves_getConditions.bind fun previous after h => ?_
  obtain ⟨rfl, rfl⟩ := h
  refine (moves_setConditions []).bind fun _ after h => ?_
  subst h
  refine (keeps_replaceBlockType _).bind_moves fun _ =>
    (keeps_executeSequenceOfStatements hkeep _ _ _).bind_moves fun _ => (keeps_replaceBlockType _).bind_moves fun _ => ?_
  refine (moves_setConditions _).bind fun _ after h => ?_
  subst h
  exact (keeps_unwrap _).bind fun _ => .pure _

theorem keeps_executeArguments (info : Meta) (isTemplate : Bool) (args : List Expression) :
    Keeps conditions (executeArguments parts executors info isTemplate args) := by
  induction args with
  | nil => exact .pure _
  | cons arg args ih =>
    refine (hkeep.expression conditions arg).bind fun _ => (keeps_unwrap _).bind fun _ => ?_
    cases isTemplate with
    | true => exact (keeps_leaf _).bind fun _ => ih.bind fun _ => .pure _
    | false => exact ih.bind fun _ => .pure _

omit hkeep in
theorem keeps_insideCall (id : String) (args : List S) {body : Executes R α} (hbody : Keeps conditions body) :
    Keeps conditions (insideCall parts id args body) :=
  keeps_getRest.bind fun _ => (keeps_modifyRest _).bind fun _ => (keeps_replaceBlockType _).bind fun _ =>
    hbody.bind fun _ => (keeps_modifyRest _).bind fun _ => (keeps_replaceBlockType _).bind fun _ => .pure _

theorem keeps_executeCall (info : Meta) (id : String) (args : List Expression) :
    Keeps conditions (executeCall parts executors info id args) := by
  unfold executeCall
  exact (keeps_executeArguments hkeep _ _ _).bind fun _ =>
    .ite (keeps_insideCall id _ (keeps_executeFunctionCall hkeep id)) ((keeps_leaf _).bind fun _ => .pure _)

theorem keeps_executeTemplateCallComplete (id : String) (args : List S) (tags : T) :
    Keeps conditions (executeTemplateCallComplete parts executors conditions id args tags) := by
  unfold executeTemplateCallComplete
  refine .ite (keeps_insideCall id args ?_) .panicked
  refine (keeps_leaf _).bind fun node => ?_
  cases node with
  | some value => exact .pure _
  | none => exact (keeps_executeSequenceOfStatements hkeep _ _ _).bind fun _ => keeps_leaf _

theorem keeps_executeBusCallComplete (info : Meta) (id : String) (args : List Expression) :
    Keeps conditions (executeBusCallComplete parts executors info id args) := by
  unfold executeBusCallComplete
  refine (keeps_executeArguments hkeep _ _ _).bind fun _ => .ite (keeps_insideCall id _ ?_) .panicked
  refine (keeps_leaf _).bind fun node => ?_
  cases node with
  | some value => exact .pure _
  | none => exact (keeps_executeSequenceOfBusStatements hkeep _).bind fun _ => keeps_leaf _

/-! ## Expressions -/

theorem keeps_executeAll (exprs : List Expression) : Keeps conditions (executeAll executors exprs) := by
  induction exprs with
  | nil => exact .pure _
  | cons expr exprs ih => exact (hkeep.expression conditions expr).bind fun _ => ih.bind fun _ => .pure _

theorem keeps_executeVariableExpression (info : Meta) (name : String) (access : List Access) :
    Keeps conditions (executeVariableExpression parts executors info name access) := by
  have hother : ∀ (part : Meta → String → AccessingInformation E → Leaf R V),
      Keeps conditions (treatAccessing parts executors info access >>= fun access => leaf (part info name access)) :=
    fun part => (keeps_treatAccessing hkeep info access).bind fun _ => keeps_leaf _
  have hbus : ∀ (part : Meta → String → AccessingInformationBus E → Leaf R V),
      Keeps conditions (treatAccessingBus parts executors info (accessGroups access) >>=
        fun access => leaf (part info name access)) :=
    fun part => (keeps_treatAccessingBus hkeep info _).bind fun _ => keeps_leaf _
  unfold executeVariableExpression
  exact keeps_getRest.bind fun rest => .ite (hother parts.executeSignal) <| .ite (hbus parts.executeComponent) <|
    .ite (hother parts.executeVariable) <| .ite (hbus parts.executeBus) .panicked

theorem keeps_executeExpressionCases (expr : Expression) :
    Keeps conditions (executeExpressionCases parts executors expr) := by
  cases expr with
  | number info value => exact .pure _
  | var info name access => exact (keeps_executeVariableExpression hkeep info name access).bind fun _ => .pure _
  | arrayInLine info values =>
    exact (keeps_executeAll hkeep values).bind fun _ => (keeps_leaf _).bind fun _ => .pure _
  | uniformArray info value dimension =>
    exact (hkeep.expression _ dimension).bind fun _ => (keeps_unwrap _).bind fun _ => (keeps_unwrap _).bind fun _ =>
      (hkeep.expression _ value).bind fun _ => (keeps_leaf _).bind fun _ => .pure _
  | infixOp info lhe infixOp rhe =>
    exact (hkeep.expression _ lhe).bind fun _ => (hkeep.expression _ rhe).bind fun _ =>
      (keeps_unwrap _).bind fun _ => (keeps_unwrap _).bind fun _ => (keeps_leaf _).bind fun _ => .pure _
  | prefixOp info prefixOp rhe =>
    exact (hkeep.expression _ rhe).bind fun _ => (keeps_unwrap _).bind fun _ => (keeps_leaf _).bind fun _ => .pure _
  | inlineSwitchOp info cond ifTrue ifFalse =>
    refine (hkeep.expression _ cond).bind fun _ => (keeps_unwrap _).bind fun value =>
      keeps_getRest.bind fun rest => ?_
    cases parts.getBooleanEquivalence rest value with
    | some boolCond => exact (hkeep.expression _ _).bind fun _ => .pure _
    | none => exact .pure _
  | call info id args => exact keeps_executeCall hkeep info id args
  | busCall info id args => exact (keeps_executeBusCallComplete hkeep info id args).bind fun _ => .pure _
  | parallelOp info rhe => exact (hkeep.expression _ rhe).bind fun _ => (keeps_unwrap _).bind fun _ => .pure _
  | anonymousComp => exact .panicked
  | tuple => exact .panicked

theorem keeps_executeExpression (expr : Expression) : Keeps conditions (executeExpression parts executors expr) :=
  (keeps_executeExpressionCases hkeep expr).bind fun _ => (keeps_modifyRest _).bind fun _ => .pure _

/-! ## Conditionals and loops -/

/-- The branches of a conditional, when its condition is unknown. -/
theorem keeps_unknownBranches (trueCase : Statement) (falseCase : Option Statement) :
    Keeps conditions (executeUnknownBranches parts executors conditions trueCase falseCase) := by
  refine (keeps_replaceBlockType _).bind fun previousBlockType => ?_
  refine moves_pushCondition.bind fun entry after h => ?_
  subst h
  refine (hkeep.statement _ trueCase).bind_moves fun (returned, canSimplify) => ?_
  cases falseCase with
  | none =>
    refine (Keeps.pure _).bind_moves fun _ => (moves_popCondition entry).bind fun _ after h => ?_
    subst h
    exact (keeps_replaceBlockType _).bind fun _ => .pure _
  | some elseStmt =>
    have helse : Moves (conditions ++ [entry])
        (executeElse parts executors conditions entry returned canSimplify elseStmt)
        fun _ after => after = conditions ++ [(entry.1, false)] := by
      refine (moves_negateLastCondition entry).bind fun _ after h => ?_
      subst h
      refine (hkeep.statement _ elseStmt).bind fun (elseReturned, canSimplifyElse) => ?_
      cases returned with
      | none => exact .pure _
      | some value =>
        cases elseReturned with
        | none => exact .pure _
        | some elseValue => exact (keeps_unwrap _).bind fun _ => .pure _
    refine helse.bind fun _ after h => ?_
    subst h
    refine (moves_popCondition _).bind fun _ after h => ?_
    subst h
    exact (keeps_replaceBlockType _).bind fun _ => .pure _

/-- What a conditional does with the value of its condition. -/
theorem keeps_branch (value : Option Bool) (trueCase : Statement) (falseCase : Option Statement) :
    Keeps conditions (executeBranch parts executors conditions value trueCase falseCase) := by
  match value with
  | some true => exact (hkeep.statement _ trueCase).bind fun _ => .pure _
  | some false =>
    cases falseCase with
    | some elseStmt => exact (hkeep.statement _ elseStmt).bind fun _ => .pure _
    | none => exact .pure _
  | none => exact keeps_unknownBranches hkeep trueCase falseCase

theorem keeps_executeCondition (condition : Expression) :
    Keeps conditions (executeCondition parts executors condition) :=
  (hkeep.expression _ condition).bind fun _ => (keeps_unwrap _).bind fun _ => keeps_getRest.bind fun _ => .pure _

theorem keeps_ifThenElse (condition : Expression) (trueCase : Statement) (falseCase : Option Statement) :
    Keeps conditions
      (executeConditionalStatement parts executors none conditions condition trueCase falseCase) :=
  (keeps_executeCondition hkeep condition).bind fun _ => keeps_branch hkeep _ trueCase falseCase

/-- The first round of a regular loop. -/
theorem moves_firstRound (condition : Expression) (stmt : Statement) :
    Moves conditions (executeConditionalStatement parts executors (some 0) conditions condition stmt none)
      fun result after => after = conditions ∧ result.2.2 = some true := by
  refine (keeps_executeCondition hkeep condition).bind_moves fun value => .emit_bind fun hregular => ⟨trivial, ?_⟩
  obtain ⟨-, rfl⟩ | ⟨h, -⟩ := hregular
  · exact (hkeep.statement _ stmt).bind_moves fun _ => .pure ⟨rfl, rfl⟩
  · cases h

/-- The second round of a regular loop executes nothing, so that the entry of the loop is not missed. -/
theorem moves_secondRound (enclosing : Conditions) (condition : Expression) (stmt : Statement) :
    Moves conditions (executeConditionalStatement parts executors (some 1) enclosing condition stmt none)
      fun result after => after = conditions ∧ result = (none, true, some false) := by
  refine (keeps_executeCondition hkeep condition).bind_moves fun value => .emit_bind fun hregular => ⟨trivial, ?_⟩
  obtain ⟨h, -⟩ | ⟨-, rfl⟩ := hregular
  · cases h
  · exact .pure ⟨rfl, rfl⟩

theorem moves_executeLoop (entry : ℕ × Bool) (condition : Expression) (stmt : Statement) (fuel : ℕ)
    (canBeSimplified : Bool) :
    Moves (conditions ++ [entry])
      (executeLoop parts executors (conditions ++ [entry]) condition stmt fuel 0 canBeSimplified)
      fun _ after => after = conditions := by
  cases fuel with
  | zero => exact fun _ _ => .fail (by decide)
  | succ fuel =>
    refine (moves_firstRound hkeep condition stmt).bind fun (returned, canSimplify, conditionResult) after h => ?_
    obtain ⟨rfl, rfl⟩ := h
    cases returned with
    | some value => exact .emit_bind fun hregular => hregular.elim
    | none =>
      refine (moves_popCondition entry).bind fun _ after h => ?_
      subst h
      cases fuel with
      | zero => exact fun _ _ => .fail (by decide)
      | succ fuel =>
        refine (moves_secondRound hkeep _ condition stmt).bind fun result after h => ?_
        obtain ⟨rfl, rfl⟩ := h
        exact .pure rfl

/-! ## Statements -/

theorem keeps_accessInformation (info : Meta) (var : String) (access : List Access) :
    Keeps conditions (accessInformation parts executors info var access) := by
  unfold accessInformation
  exact keeps_getRest.bind fun _ => .ite ((keeps_treatAccessingBus hkeep info _).bind fun _ => .pure _)
    ((keeps_treatAccessing hkeep info access).bind fun _ => .pure _)

theorem keeps_performAssign (info : Meta) (var : String) (op : AssignOp) (access : TypesAccess E) (rFolded : V) :
    Keeps conditions (performAssign parts executors conditions info var op access rFolded) := by
  refine moves_getConditions.bind fun found after h => ?_
  obtain ⟨rfl, rfl⟩ := h
  refine (keeps_leaf _).bind fun assignment => ?_
  rcases assignment with ⟨constrained, - | component⟩
  · exact .pure _
  · exact .ite ((keeps_executeTemplateCallComplete hkeep _ _ _).bind fun _ => (keeps_leaf _).bind fun _ => .pure _)
      ((Keeps.pure ()).bind fun _ => .pure _)

theorem keeps_executeLogArguments (args : List LogArgument) :
    Keeps conditions (executeLogArguments parts executors args) := by
  induction args with
  | nil => exact .pure _
  | cons arg args ih =>
    cases arg with
    | logStr string => exact ih
    | logExp arg => exact (hkeep.expression _ arg).bind fun _ => (keeps_unwrap _).bind fun _ => ih

theorem keeps_executeStatementCases (fuel : ℕ) (stmt : Statement) :
    Keeps conditions (executeStatementCases parts executors fuel conditions stmt) := by
  cases stmt with
  | initializationBlock info xtype initializations =>
    exact (keeps_executeSequenceOfStatements hkeep _ _ _).bind fun _ => .pure _
  | declaration info xtype name dimensions isConstant isAnonymous =>
    have hdeclare : ∀ xtype, Keeps conditions (executeSingles parts executors dimensions >>= fun values => do
        leaf (parts.declare info xtype name isAnonymous values)
        pure ((none : Option V), true)) :=
      fun xtype => (keeps_executeSingles hkeep dimensions).bind fun _ => (keeps_leaf _).bind fun _ => .pure _
    cases xtype with
    | anonymousComponent => exact (keeps_leaf _).bind fun _ => .pure _
    | _ => exact hdeclare _
  | substitution info var access op rhe =>
    exact (keeps_accessInformation hkeep info var access).bind fun _ => (hkeep.expression _ rhe).bind fun _ =>
      (keeps_performAssign hkeep info var op _ _).bind fun _ => (keeps_leaf _).bind fun _ => .pure _
  | constraintEquality info lhe rhe =>
    exact (keeps_leaf _).bind fun _ => (hkeep.expression _ lhe).bind fun _ => (hkeep.expression _ rhe).bind fun _ =>
      (keeps_leaf _).bind fun _ => .pure _
  | returnStmt info value =>
    exact (hkeep.expression _ value).bind fun _ => (keeps_leaf _).bind fun _ => .pure _
  | ifThenElse info cond ifCase elseCase =>
    exact (keeps_ifThenElse hkeep cond ifCase elseCase).bind fun _ => .pure _
  | whileStmt info cond stmt =>
    refine moves_pushCondition.bind fun entry after h => ?_
    subst h
    exact moves_executeLoop hkeep entry cond stmt fuel true
  | block info stmts =>
    exact (keeps_modifyRest _).bind fun _ => (keeps_executeSequenceOfStatements hkeep _ _ _).bind fun _ =>
      (keeps_modifyRest _).bind fun _ => .pure _
  | logCall info args => exact (keeps_executeLogArguments hkeep args).bind fun _ => .pure _
  | assert info arg =>
    exact (hkeep.expression _ arg).bind fun _ => (keeps_unwrap _).bind fun _ => (keeps_leaf _).bind fun _ => .pure _
  | underscoreSubstitution info op rhe =>
    exact (hkeep.expression _ rhe).bind fun _ => (keeps_leaf _).bind fun _ => .pure _
  | multSubstitution => exact .panicked

theorem keeps_executeStatement (fuel : ℕ) (stmt : Statement) :
    Keeps conditions (executeStatement parts executors fuel conditions stmt) := by
  refine (keeps_modifyRest _).bind fun _ => ?_
  refine moves_getConditions.bind fun before after h => ?_
  obtain ⟨rfl, rfl⟩ := h
  refine .emit_bind fun _ => ⟨rfl, (keeps_executeStatementCases hkeep fuel stmt).bind fun result => ?_⟩
  refine moves_getConditions.bind fun found after h => ?_
  obtain ⟨rfl, rfl⟩ := h
  exact .emit_bind fun _ => ⟨rfl, .pure rfl⟩

theorem keeps_executeBusStatement (stmt : Statement) :
    Keeps conditions (executeBusStatement parts executors stmt) := by
  refine (keeps_modifyRest _).bind fun _ => ?_
  cases stmt with
  | initializationBlock info xtype initializations => exact keeps_executeSequenceOfBusStatements hkeep _
  | declaration info xtype name dimensions isConstant isAnonymous =>
    exact (keeps_executeSingles hkeep dimensions).bind fun _ => keeps_leaf _
  | substitution info var access op rhe =>
    refine (keeps_accessInformation hkeep info var access).bind fun _ => (hkeep.expression _ rhe).bind fun _ => ?_
    refine moves_getConditions.bind fun found after h => ?_
    obtain ⟨rfl, rfl⟩ := h
    exact keeps_leaf _
  | block info stmts => exact keeps_executeSequenceOfBusStatements hkeep _
  | _ => exact .panicked

end

/-! ## Whole runs -/

theorem executorsUpTo_keep (parts : Parts R V E S T D) (fuel : ℕ) : (executorsUpTo parts fuel).Keep := by
  induction fuel with
  | zero => exact ⟨fun _ _ => .fail (by decide), fun _ _ => .fail (by decide), fun _ _ => .fail (by decide)⟩
  | succ fuel ih =>
    exact ⟨fun _ => keeps_executeExpression ih, fun _ => keeps_executeStatement ih fuel,
      fun _ => keeps_executeBusStatement ih⟩

instance (event : Event) : Decidable event.Regular := by
  unfold Event.Regular
  cases event <;> infer_instance

/-- All loops of the run are regular. -/
def RegularRun (x : Executes R α) (runtime : Runtime R) : Prop := ∀ event ∈ (x runtime).2.2, event.Regular

/-- The run ends with an access below the bottom of the stack. -/
def underflows (x : Executes R α) (runtime : Runtime R) : Bool :=
  match (x runtime).1 with
  | .error .underflow => true
  | _ => false

/-- Every statement of the run is executed with the entries of the conditionals and loops around it, the stack is
never accessed below its bottom, and it is in the end as it was at the start. -/
structure BalancedRun (x : Executes R α) (runtime : Runtime R) : Prop where
  /-- The stack has the entries of the conditionals and loops around a statement. -/
  statements : ∀ event ∈ (x runtime).2.2, event.Balanced
  /-- The stack is never empty when it is popped or read. -/
  accesses : underflows x runtime = false
  /-- What is pushed is popped. -/
  restored : ∀ a, (x runtime).1 = .ok a → (x runtime).2.1.conditionsState = runtime.conditionsState

theorem Keeps.balancedRun {x : Executes R α} {runtime : Runtime R} (h : Keeps runtime.conditionsState x)
    (hregular : RegularRun x runtime) : BalancedRun x runtime := by
  obtain ⟨hright, hend⟩ := h rfl hregular
  refine ⟨hright, ?_, fun a hok => ?_⟩
  · unfold underflows
    rcases hrun : (x runtime).1 with (fault | - | -) | a
    · rfl
    · rw [hrun] at hend
      exact absurd rfl hend
    · rfl
    · rfl
  · rw [hok] at hend
    exact hend

/-- The stack is balanced in every run in which each loop evaluates its condition to true once and then to false,
and is not left by a `return`. -/
theorem execute_balanced (parts : Parts R V E S T D) (fuel : ℕ) (runtime : Runtime R) :
    (∀ stmt, RegularRun ((executorsUpTo parts fuel).statement runtime.conditionsState stmt) runtime →
      BalancedRun ((executorsUpTo parts fuel).statement runtime.conditionsState stmt) runtime) ∧
    ∀ expr, RegularRun ((executorsUpTo parts fuel).expression expr) runtime →
      BalancedRun ((executorsUpTo parts fuel).expression expr) runtime :=
  ⟨fun stmt => ((executorsUpTo_keep parts fuel).statement runtime.conditionsState stmt).balancedRun,
    fun expr => ((executorsUpTo_keep parts fuel).expression runtime.conditionsState expr).balancedRun⟩

def exampleInfo : Meta := ⟨0, 0, none⟩

/-- `while (i < bound) { i = i + 1; }` -/
def countTo (bound : ℤ) : Statement :=
  .whileStmt exampleInfo (.infixOp exampleInfo (.var exampleInfo "i" []) .lesser (.number exampleInfo bound))
    (.block exampleInfo [.substitution exampleInfo "i" [] .assignVar
      (.infixOp exampleInfo (.var exampleInfo "i" []) .add (.number exampleInfo 1))])

/-- Values are numbers or unknown, and the environment is the value of the variable `i`. -/
def numberParts : Parts ℤ (Option ℤ) (Option ℤ) Unit Unit Unit where
  single := some
  slice _ := some ()
  nodePointer := some
  getBooleanEquivalence _ value := value.map (· ≠ 0)
  castIndex value := value.map Int.toNat
  biggestReturn value _ := some value
  containsFunction _ := false
  containsTemplate _ := false
  containsBus _ := false
  functionBody _ := []
  templateBody _ := []
  busBody _ := []
  hasSignal _ _ := false
  hasComponent _ _ := false
  hasVariable _ name := name == "i"
  hasBus _ _ := false
  anonymousComponents _ := []
  addVariableBlock := id
  removeVariableBlock := id
  reached _ := id
  computed _ _ _ := id
  enterCall _ _ _ := 0
  leaveCall before _ := before
  isKnownArgument _ _ _ i := (.ok (), i)
  preexecuteTemplateCall _ _ _ i := (.error .panicked, i)
  identifyNode _ _ _ _ i := (.ok none, i)
  addNodeToScheme _ _ _ _ i := (.ok (some 0), i)
  identifyBusNode _ _ _ i := (.error .panicked, i)
  addBusNodeToScheme _ _ _ i := (.error .panicked, i)
  number := some
  nonQuadratic := none
  executeVariable _ _ _ _ i := (.ok (some i), i)
  executeSignal _ _ _ _ i := (.ok none, i)
  executeComponent _ _ _ _ i := (.error .panicked, i)
  executeBus _ _ _ _ i := (.error .panicked, i)
  validIndexing _ _ _ i := (.ok (), i)
  arrayInLine _ _ _ i := (.error .panicked, i)
  uniformArray _ _ _ _ i := (.error .panicked, i)
  executeInfixOp _ op l r _ i :=
    match op, l, r with
    | .add, some l, some r => (.ok (some (l + r)), i)
    | .lesser, some l, some r => (.ok (some (if l < r then 1 else 0)), i)
    | _, _, _ => (.ok none, i)
  executePrefixOp _ _ _ i := (.error .panicked, i)
  declareAnonymousComponent _ _ _ _ i := (.ok (), i)
  declare _ _ _ _ _ _ _ := (.ok (), 0)
  declareInBus _ _ _ _ _ i := (.error .panicked, i)
  addComponent _ _ _ _ i := (.error .panicked, i)
  performAssign _ _ _ _ value _ _ i := (.ok ⟨none, none⟩, value.getD i)
  initializeComponent _ _ _ _ _ i := (.ok (), i)
  addConstraints _ _ _ _ i := (.ok (), i)
  performAssignInBus _ _ _ _ _ _ _ i := (.error .panicked, i)
  checkKnownBlock _ _ i := (.ok (), i)
  constraintEquality _ _ _ _ i := (.ok (), i)
  returnValue value _ i := (.ok value, i)
  assertion _ _ _ i := (.ok true, i)
  underscore _ _ _ _ i := (.ok (), i)

def initialRuntime : Runtime ℤ := ⟨.known, [], 0, 0⟩

/-- `while (i < 1) { i = i + 1; }` from `i = 0` -/
theorem execute_balanced_one :
    RegularRun ((executorsUpTo numberParts 7).statement [] (countTo 1)) initialRuntime ∧
      BalancedRun ((executorsUpTo numberParts 7).statement [] (countTo 1)) initialRuntime := by
  have hregular : RegularRun ((executorsUpTo numberParts 7).statement [] (countTo 1)) initialRuntime := by
    unfold RegularRun
    decide +kernel
  exact ⟨hregular, (execute_balanced numberParts 7 initialRuntime).1 (countTo 1) hregular⟩

/-- `while (i < 0) { i = i + 1; }` leaves its entry on the stack. -/
theorem not_execute_balanced :
    ¬ BalancedRun ((executorsUpTo numberParts 7).statement [] (countTo 0)) initialRuntime := by
  intro h
  have hleft : ([(0, true)] : Conditions) = [] := h.restored (none, true) rfl
  cases hleft

end Circom.ConstraintGeneration
