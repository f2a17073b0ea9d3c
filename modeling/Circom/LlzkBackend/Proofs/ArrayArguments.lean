import Circom.Lib.PartialFold
import Circom.Lib.RowMajor
import Circom.LlzkBackend.TemplateArrays
import Circom.LlzkBackend.Proofs.InterpreterFuel
import Circom.LlzkBackend.Proofs.KnownValues

/-!
# Flattening and rebuilding arrays

The coordinates of a shape are enumerated in row-major order, the selected elements of an argument have the
values of its cells, and the array that is rebuilt from them has the value of the argument.
-/

namespace Circom.LlzkBackend

open Circom.Algebra.ModularArithmetic (modulus)
open Circom.Ast
open Circom.Lib (HashMap Within bind_eq_ok forall₂_comp indexVectors)
open Filter

variable {shape : List ℕ}
variable {index : List ℕ} {n : ℕ}

/-! ## Coordinates -/

theorem foldlM_toUsize {a : ℕ} (h : shape.foldlM (fun size dimension => toUsize (size * dimension)) a = some n) :
    n = a * shape.prod := by
  induction shape generalizing a with
  | nil =>
    rw [List.prod_nil, Nat.mul_one]
    exact (Option.some.inj h).symm
  | cons d shape ih =>
    rw [List.foldlM_cons] at h
    obtain ⟨b, hb, h⟩ := Option.bind_eq_some_iff.mp h
    rw [ih h, eq_of_toUsize hb, List.prod_cons, Nat.mul_assoc]

theorem elementCount_eq_ok {count : ℕ} (h : elementCount shape = .ok count) : count = shape.prod := by
  unfold elementCount at h
  split_ifs at h with hzero
  · cases h
    exact (List.prod_eq_zero hzero).symm
  · split at h
    · next n hn =>
      cases h
      rw [foldlM_toUsize hn, Nat.one_mul]
    · cases h

theorem indices_eq {count : ℕ} (h : elementCount shape = .ok count) :
    indices shape = .ok (indexVectors shape) := by
  have hlength := Lib.length_indexVectors shape
  rw [← elementCount_eq_ok h] at hlength
  simp only [indices, h, Lib.foldl_lengthen_eq, List.flatMap_singleton, List.nil_append, List.map_id']
  change (if count = 0 then _ else _) = _
  split_ifs with hzero
  · rw [List.length_eq_zero_iff.mp (hlength.trans hzero)]
  · rfl

/-! ## Shapes of values -/

/-- The value is an array with the dimensions, a scalar if there are none. -/
inductive ConstantValue.HasShape : List ℕ → ConstantValue → Prop
  | scalar {n : ℕ} : HasShape [] (.scalar n)
  | array {rest : List ℕ} {values : List ConstantValue} (h : ∀ value ∈ values, HasShape rest value) :
    HasShape (values.length :: rest) (.array values)

/-- Arrays of one shape. -/
theorem sameShape_of_hasShape {v w : ConstantValue} (hv : v.HasShape shape) (hw : w.HasShape shape) :
    v.sameShape w = true := by
  induction hv generalizing w with
  | scalar =>
    cases hw
    rfl
  | @array rest values h ih =>
    generalize hd : values.length = d at hw
    cases hw with
    | @array _ values' h' =>
      rw [ConstantValue.sameShape]
      induction values generalizing values' with
      | nil =>
        rw [List.length_eq_zero_iff.mp hd.symm]
        rfl
      | cons value values ihvalues =>
        cases values' with
        | nil => cases hd
        | cons value' values' =>
          rw [ConstantValue.sameShapes, ih value List.mem_cons_self (h' value' List.mem_cons_self),
            Bool.true_and]
          exact ihvalues (fun v hv => h v (List.mem_cons_of_mem _ hv))
            (fun v hv _ hw => ih v (List.mem_cons_of_mem _ hv) hw) (Nat.succ.inj hd)
            (fun v hv => h' v (List.mem_cons_of_mem _ hv))

namespace ConstantValue

/-- The scalar at an index. -/
def HasCell (value : ConstantValue) (index : List ℕ) (n : ℕ) : Prop :=
  index.foldlM element value = some (.scalar n)

theorem hasCell_cons {values : List ConstantValue} {value : ConstantValue} {i : ℕ}
    (hi : values[i]? = some value) : (array values).HasCell (i :: index) n ↔ value.HasCell index n := by
  unfold HasCell
  rw [List.foldlM_cons, element, hi]
  rfl

/-- The scalars of the last elements of an array. -/
theorem allScalars_hasCell {rest : List ℕ} (before values : List ConstantValue)
    (h : ∀ value ∈ values, ∃ cells, arrayScalars value rest = .ok cells ∧
      List.Forall₂ value.HasCell (indexVectors rest) cells) :
    ∃ cells, allScalars values rest = .ok cells ∧
      List.Forall₂ (array (before ++ values)).HasCell
        ((List.range' before.length values.length).flatMap fun i => (indexVectors rest).map (i :: ·))
        cells := by
  induction values generalizing before with
  | nil => exact ⟨[], rfl, List.Forall₂.nil⟩
  | cons value values ih =>
    obtain ⟨cells, hcells, hcell⟩ := h value List.mem_cons_self
    obtain ⟨others, hothers, hother⟩ :=
      ih (before ++ [value]) fun v hv => h v (List.mem_cons_of_mem _ hv)
    rw [List.append_assoc, List.singleton_append, List.length_append, List.length_singleton] at hother
    refine ⟨cells ++ others, ?_, ?_⟩
    · rw [allScalars, hcells, hothers]
      rfl
    · rw [List.length_cons, List.range'_succ, List.flatMap_cons]
      refine List.rel_append ?_ hother
      rw [List.forall₂_map_left_iff]
      refine hcell.imp fun index n hn => (hasCell_cons ?_).mpr hn
      rw [List.getElem?_append_right (Nat.le_refl _), Nat.sub_self]
      rfl

/-- The scalars of an array are its cells in row-major order. -/
theorem HasShape.arrayScalars {value : ConstantValue} (h : value.HasShape shape) :
    ∃ cells, arrayScalars value shape = .ok cells ∧
      List.Forall₂ value.HasCell (indexVectors shape) cells := by
  induction h with
  | @scalar n => exact ⟨[n], rfl, List.Forall₂.cons rfl List.Forall₂.nil⟩
  | @array rest values _ ih =>
    obtain ⟨cells, hcells, hcell⟩ := allScalars_hasCell [] values ih
    refine ⟨cells, ?_, ?_⟩
    · rw [LlzkBackend.arrayScalars, if_pos rfl, hcells]
    · rw [indexVectors, List.range_eq_range']
      exact hcell

end ConstantValue

/-! ## Evaluation -/

/-- The expression that is written has the shape wherever its elements are selected: array literals have as
many elements as the dimension says, and both branches of an inline switch have the shape. -/
inductive Fits : Expression → List ℕ → Prop
  | scalar {expr : Expression} : Fits expr []
  | var {info : Meta} {name : String} {access : List Access} {shape : List ℕ} :
    Fits (.var info name access) shape
  | arrayInLine {info : Meta} {values : List Expression} {rest : List ℕ}
    (h : ∀ value ∈ values, Fits value rest) : Fits (.arrayInLine info values) (values.length :: rest)
  | uniformArray {info : Meta} {value length : Expression} {d : ℕ} {rest : List ℕ}
    (h : Fits value rest) : Fits (.uniformArray info value length) (d :: rest)
  | inlineSwitchOp {info : Meta} {cond ifTrue ifFalse : Expression} {shape : List ℕ}
    (h : Fits ifTrue shape) (h' : Fits ifFalse shape) :
    Fits (.inlineSwitchOp info cond ifTrue ifFalse) shape

theorem elementOf_eq {index : ℕ} {rest : List ℕ} {values : List Expression} {value : Expression}
    (h : values[n]? = some value) : elementOf index rest values n = arrayElement value rest := by
  induction values generalizing n with
  | nil => cases h
  | cons first values ih =>
    cases n with
    | zero =>
      cases h
      rfl
    | succ n => exact ih h

/-- Every cell of an argument that fits has an expression. -/
theorem Fits.arrayElement {expr : Expression} (h : Fits expr shape)
    (hindex : Within index shape) : ∃ element, arrayElement expr index = .ok element := by
  induction h generalizing index with
  | @scalar expr =>
    cases hindex
    exact ⟨expr, by unfold LlzkBackend.arrayElement; rfl⟩
  | @var info name access shape =>
    cases index with
    | nil => exact ⟨_, rfl⟩
    | cons i index => exact ⟨_, rfl⟩
  | @arrayInLine info values rest _ ih =>
    obtain ⟨i, index, hi, hrest, rfl⟩ := List.forall₂_cons_right_iff.mp hindex
    obtain ⟨element, helement⟩ := ih _ (List.getElem_mem hi) hrest
    exact ⟨element, (elementOf_eq (List.getElem?_eq_getElem hi)).trans helement⟩
  | @uniformArray info value length d rest _ ih =>
    obtain ⟨i, index, -, hrest, rfl⟩ := List.forall₂_cons_right_iff.mp hindex
    exact ih hrest
  | @inlineSwitchOp info cond ifTrue ifFalse shape _ _ ih ih' =>
    cases index with
    | nil => exact ⟨_, rfl⟩
    | cons i index =>
      obtain ⟨element, helement⟩ := ih hindex
      obtain ⟨element', helement'⟩ := ih' hindex
      refine ⟨.inlineSwitchOp info cond element element', ?_⟩
      rw [LlzkBackend.arrayElement, helement, helement']
      rfl

namespace Interpreter

variable {p : ℕ} {uninitialized : ℤ} {functions : FunctionInfo} {env : Scoped}

theorem returns_of_eval {fuel : ℕ} {expr : Expression} {value : ConstantValue}
    (h : eval (modularArithmetic p uninitialized) functions fuel expr env = .ok value) :
    Returns p uninitialized functions expr env value := by
  filter_upwards [eventually_ge_atTop fuel] with n hn
  exact eval_eq_ok_of_le _ functions hn h

theorem returns_number (info : Meta) (h : n < p) :
    Returns p uninitialized functions (.number info n) env (.scalar n) := by
  refine @returns_of_eval _ _ _ _ 1 _ _ ?_
  have hn : (modulus n p).toNat = n := by
    rw [modulus_natCast (Nat.zero_lt_of_lt h), Int.toNat_natCast, Nat.mod_eq_of_lt h]
  exact congrArg (fun n => Except.ok (ConstantValue.scalar n)) hn

section Lists

variable {eval : Expression → Scoped → Except Stop ConstantValue}

theorem accessIndices_append (access access' : List Access) :
    accessIndices eval env (access ++ access') = (do
      let indices ← accessIndices eval env access
      let indices' ← accessIndices eval env access'
      .ok (indices ++ indices')) := by
  induction access with
  | nil =>
    cases h : accessIndices eval env access' <;> rw [List.nil_append, h] <;> rfl
  | cons item access ih =>
    cases item with
    | componentAccess name => rfl
    | arrayAccess index =>
      rw [List.cons_append, accessIndices, accessIndices, ih]
      cases scalar eval index env with
      | error stop => rfl
      | ok n =>
        cases accessIndices eval env access with
        | error stop => rfl
        | ok indices => cases accessIndices eval env access' <;> rfl

theorem accessIndices_numbers (info : Meta) (h : ∀ i ∈ index, eval (.number info (i : ℤ)) env = .ok (.scalar i)) :
    accessIndices eval env (index.map fun i : ℕ => .arrayAccess (.number info (i : ℤ))) = .ok index := by
  induction index with
  | nil => rfl
  | cons i index ih =>
    rw [List.map_cons, accessIndices, scalar, h i List.mem_cons_self,
      ih fun j hj => h j (List.mem_cons_of_mem _ hj)]
    rfl

theorem arrayElements_eq_ok {elements values : List ConstantValue} {exprs : List Expression}
    (h : arrayElements eval env elements exprs = .ok values) :
    ∃ new, values = elements ++ new ∧ List.Forall₂ (fun expr v => eval expr env = .ok v) exprs new := by
  induction exprs generalizing elements with
  | nil =>
    cases h
    exact ⟨[], (List.append_nil _).symm, List.Forall₂.nil⟩
  | cons expr exprs ih =>
    obtain ⟨v, hv, h⟩ := bind_eq_ok h
    split_ifs at h
    obtain ⟨new, rfl, hnew⟩ := ih h
    exact ⟨v :: new, by rw [List.append_assoc]; rfl, List.Forall₂.cons hv hnew⟩

/-- Elements of one shape make an array. -/
theorem arrayElements_of_hasShape {elements values : List ConstantValue} {exprs : List Expression}
    (h : List.Forall₂ (fun expr v => eval expr env = .ok v) exprs values)
    (hshape : ∀ v ∈ elements ++ values, v.HasShape shape) :
    arrayElements eval env elements exprs = .ok (elements ++ values) := by
  induction h generalizing elements with
  | nil => rw [List.append_nil, arrayElements]
  | @cons expr v exprs values hv _ ih =>
    have hall : (elements.head?.all fun first => first.sameShape v) = true := by
      cases elements with
      | nil => rfl
      | cons first elements =>
        exact sameShape_of_hasShape (hshape first (by simp)) (hshape v (by simp))
    rw [arrayElements, hv]
    change (if _ then arrayElements eval env (elements ++ [v]) exprs else _) = _
    rw [if_pos hall, ih (by rwa [List.append_assoc]), List.append_assoc]
    rfl

end Lists

theorem eval_succ_of_eq_ok {ops : Operators} {fuel : ℕ} {expr : Expression} {value : ConstantValue}
    (h : eval ops functions fuel expr env = .ok value) :
    ∃ n, fuel = n + 1 ∧ eval ops functions (n + 1) expr env = .ok value := by
  cases fuel with
  | zero => cases h
  | succ n => exact ⟨n, rfl, h⟩

theorem orStop_eq_ok {α : Type} {stop : Stop} {o : Option α} {a : α} (h : orStop stop o = .ok a) :
    o = some a := by
  cases o with
  | none => cases h
  | some b => exact congrArg some (Except.ok.inj h)

/-- A variable with more indices in its access selects an element of its value. -/
theorem returns_var_append {fuel : ℕ} {info : Meta} {name : String} {access : List Access} {value : ConstantValue}
    (hlt : ∀ i ∈ index, i < p)
    (heval : eval (modularArithmetic p uninitialized) functions fuel (.var info name access) env = .ok value)
    (hcell : value.HasCell index n) :
    Returns p uninitialized functions
      (.var info name (access ++ index.map fun i : ℕ => .arrayAccess (.number info (i : ℤ)))) env
      (.scalar n) := by
  have hnumbers : ∀ᶠ fuel in atTop, ∀ i ∈ index,
      eval (modularArithmetic p uninitialized) functions fuel (.number info (i : ℤ)) env =
        .ok (.scalar i) := by
    refine Eventually.mono (eventually_ge_atTop 1) fun k hk i hi => ?_
    refine eval_eq_ok_of_le _ functions hk ?_
    have hi : (modulus i p).toNat = i := by
      rw [modulus_natCast (Nat.zero_lt_of_lt (hlt i hi)), Int.toNat_natCast, Nat.mod_eq_of_lt (hlt i hi)]
    exact congrArg (fun n => Except.ok (ConstantValue.scalar n)) hi
  apply eventually_of_succ
  filter_upwards [hnumbers, eventually_ge_atTop fuel] with k hnumber hk
  have h := eval_eq_ok_of_le _ functions (Nat.le_succ_of_le hk) heval
  rw [eval] at h ⊢
  obtain ⟨indices, hindices, h⟩ := bind_eq_ok h
  obtain ⟨root, hroot, h⟩ := bind_eq_ok h
  have hvalue := orStop_eq_ok h
  rw [accessIndices_append, hindices, accessIndices_numbers info hnumber]
  change (do
    let root ← orStop .undeclared (env.getVariable name)
    orStop .outOfBounds ((indices ++ index).foldlM ConstantValue.element root)) = _
  rw [hroot]
  change orStop .outOfBounds ((indices ++ index).foldlM ConstantValue.element root) = _
  rw [List.foldlM_append, hvalue]
  exact congrArg (orStop Stop.outOfBounds) hcell

/-- The expression that is selected for a cell has the value of the cell. -/
theorem returns_arrayElement {expr : Expression} (hfits : Fits expr shape) (hindex : Within index shape)
    (hle : ∀ d ∈ shape, d ≤ p) {fuel : ℕ} {value : ConstantValue}
    (heval : eval (modularArithmetic p uninitialized) functions fuel expr env = .ok value)
    (hcell : value.HasCell index n) {element : Expression} (helement : arrayElement expr index = .ok element) :
    Returns p uninitialized functions element env (.scalar n) := by
  induction hfits generalizing index fuel value element with
  | @scalar expr =>
    cases hindex
    have hvalue : value = .scalar n := Option.some.inj hcell
    have hexpr : element = expr := by
      unfold arrayElement at helement
      exact (Except.ok.inj helement).symm
    rw [hexpr, ← hvalue]
    exact returns_of_eval heval
  | @var info name access shape =>
    have hlt : ∀ i ∈ index, i < p := by
      intro i hi
      obtain ⟨d, hd, hid⟩ := Lib.forall₂_mem_left hindex hi
      exact Nat.lt_of_lt_of_le hid (hle d hd)
    have hexpr : element =
        .var info name (access ++ index.map fun i : ℕ => .arrayAccess (.number info (i : ℤ))) := by
      cases index with
      | nil =>
        rw [List.map_nil, List.append_nil]
        exact (Except.ok.inj helement).symm
      | cons i index => exact (Except.ok.inj helement).symm
    rw [hexpr]
    exact returns_var_append hlt heval hcell
  | @arrayInLine info values rest _ ih =>
    obtain ⟨i, index, hi, hrest, rfl⟩ := List.forall₂_cons_right_iff.mp hindex
    obtain ⟨fuel, rfl, heval⟩ := eval_succ_of_eq_ok heval
    obtain ⟨elements, helements, heval⟩ := bind_eq_ok heval
    cases heval
    obtain ⟨new, heq, hnew⟩ := arrayElements_eq_ok helements
    rw [List.nil_append] at heq
    subst heq
    have hi' : i < elements.length := by rwa [← hnew.length_eq]
    have hvalue := hnew.get hi hi'
    rw [ConstantValue.hasCell_cons (List.getElem?_eq_getElem hi')] at hcell
    refine ih _ (List.getElem_mem hi) hrest (fun d hd => hle d (List.mem_cons_of_mem _ hd)) hvalue
      hcell ?_
    rw [← helement]
    exact (elementOf_eq (List.getElem?_eq_getElem hi)).symm
  | @uniformArray info initial length d rest _ ih =>
    obtain ⟨i, index, hi, hrest, rfl⟩ := List.forall₂_cons_right_iff.mp hindex
    obtain ⟨fuel, rfl, heval⟩ := eval_succ_of_eq_ok heval
    obtain ⟨count, -, heval⟩ := bind_eq_ok heval
    obtain ⟨v, hv, heval⟩ := bind_eq_ok heval
    cases heval
    have hcell' : v.HasCell index n := by
      unfold ConstantValue.HasCell at hcell ⊢
      rw [List.foldlM_cons, ConstantValue.element, List.getElem?_replicate] at hcell
      split_ifs at hcell
      · exact hcell
      · cases hcell
    exact ih hrest (fun d hd => hle d (List.mem_cons_of_mem _ hd)) hv hcell' helement
  | @inlineSwitchOp info cond ifTrue ifFalse shape _ _ ih ih' =>
    obtain ⟨fuel, rfl, heval⟩ := eval_succ_of_eq_ok heval
    cases index with
    | nil =>
      have hvalue : value = .scalar n := Option.some.inj hcell
      have hexpr : element = .inlineSwitchOp info cond ifTrue ifFalse :=
        (Except.ok.inj helement).symm
      rw [hexpr, ← hvalue]
      exact returns_of_eval heval
    | cons i index =>
      rw [arrayElement] at helement
      obtain ⟨element₁, h₁, helement⟩ := bind_eq_ok helement
      obtain ⟨element₂, h₂, helement⟩ := bind_eq_ok helement
      cases helement
      obtain ⟨condition, hcond, heval⟩ := bind_eq_ok heval
      -- The branches are selected before the condition, and the condition stays what it was.
      have hbranch : Returns p uninitialized functions
          (if (modularArithmetic p uninitialized).truth condition then element₁ else element₂) env
          (.scalar n) := by
        split_ifs at heval ⊢ with htruth
        · exact ih hindex hle heval hcell h₁
        · exact ih' hindex hle heval hcell h₂
      apply eventually_of_succ
      filter_upwards [hbranch, eventually_ge_atTop fuel] with k hk hle
      have hcond' : scalar (eval (modularArithmetic p uninitialized) functions k) cond env =
          .ok condition :=
        extends_scalar (fun _ _ _ h => eval_eq_ok_of_le _ functions hle h) cond env condition hcond
      rw [eval, hcond']
      exact hk

theorem returns_uniformArray (info info' : Meta) (n : ℤ) {expr : Expression} {value : ConstantValue}
    (h : Returns p uninitialized functions expr env value) :
    Returns p uninitialized functions (.uniformArray info expr (.number info' n)) env
      (.array (List.replicate (modulus n p).toNat value)) := by
  apply eventually_of_succ
  filter_upwards [h, eventually_ge_atTop 1] with k hk hle
  obtain ⟨k, rfl⟩ := Nat.exists_eq_add_of_le' hle
  have hlength : scalar (eval (modularArithmetic p uninitialized) functions (k + 1)) (.number info' n) env =
      .ok (modulus n p).toNat := rfl
  rw [eval, hlength]
  change (do
    let element ← eval (modularArithmetic p uninitialized) functions (k + 1) expr env
    .ok (ConstantValue.array (List.replicate (modulus n p).toNat element))) = _
  rw [hk]
  rfl

theorem returns_arrayInLine (info : Meta) {exprs : List Expression} {values : List ConstantValue}
    (h : List.Forall₂ (fun expr value => Returns p uninitialized functions expr env value) exprs values)
    (hshape : ∀ v ∈ values, v.HasShape shape) :
    Returns p uninitialized functions (.arrayInLine info exprs) env (.array values) := by
  have hall : ∀ᶠ fuel in atTop, List.Forall₂
      (fun expr v => eval (modularArithmetic p uninitialized) functions fuel expr env = .ok v)
      exprs values := by
    induction h with
    | nil => exact Eventually.of_forall fun _ => List.Forall₂.nil
    | cons hv _ ih =>
      filter_upwards [hv, ih fun v hv => hshape v (List.mem_cons_of_mem _ hv)] with k hk hks
      exact List.Forall₂.cons hk hks
  apply eventually_of_succ
  filter_upwards [hall] with k hk
  have helements := @arrayElements_of_hasShape _ _ _ [] values exprs hk hshape
  rw [eval, helements]
  rfl

/-- The uniform array of an empty dimension has a value, whatever the dimensions inside are. -/
theorem returns_zeroArray (info : Meta) (shape : List ℕ) :
    ∃ value, Returns p uninitialized functions (zeroArray info shape) env value := by
  induction shape with
  | nil => exact ⟨_, @returns_of_eval _ _ _ _ 1 _ _ rfl⟩
  | cons d shape ih =>
    obtain ⟨value, hvalue⟩ := ih
    exact ⟨_, returns_uniformArray info info d hvalue⟩

end Interpreter

/-! ## Rebuilding -/

/-- The expression spells out the dimensions, also those inside an array without elements. -/
inductive Written : Expression → List ℕ → Prop
  | scalar {expr : Expression} : Written expr []
  | arrayInLine {info : Meta} {values : List Expression} {rest : List ℕ}
    (h : ∀ value ∈ values, Written value rest) : Written (.arrayInLine info values) (values.length :: rest)
  | uniformArray {info info' : Meta} {value : Expression} {d : ℕ} {rest : List ℕ}
    (h : Written value rest) : Written (.uniformArray info value (.number info' (d : ℤ))) (d :: rest)

theorem written_zeroArray (info : Meta) (shape : List ℕ) : Written (zeroArray info shape) shape := by
  induction shape with
  | nil => exact Written.scalar
  | cons d shape ih => exact Written.uniformArray ih

section Rebuild

variable (p : ℕ) (uninitialized : ℤ) (functions : FunctionInfo) (env : Scoped)

/-- Expressions that return scalars. -/
def ReturnScalars (elements : List Expression) (cells : List ℕ) : Prop :=
  List.Forall₂ (fun element n => Interpreter.Returns p uninitialized functions element env (.scalar n))
    elements cells

variable {p uninitialized functions env}

/-- From expressions for its scalars an initializer of the value is built, and nothing else is consumed. -/
def Rebuilds (p : ℕ) (uninitialized : ℤ) (functions : FunctionInfo) (env : Scoped) (info : Meta)
    (shape : List ℕ) (value : ConstantValue) : Prop :=
  ∀ cells elements rest, arrayScalars value shape = .ok cells →
    ReturnScalars p uninitialized functions env elements cells →
    ∃ initializer, arrayInitializer info shape (elements ++ rest) = .ok (initializer, rest) ∧
      Interpreter.Returns p uninitialized functions initializer env value ∧ Written initializer shape

theorem readTimes_rebuilds {info : Meta} {values : List ConstantValue}
    (h : ∀ value ∈ values, Rebuilds p uninitialized functions env info shape value) {cells : List ℕ}
    {elements : List Expression} (rest : List Expression) (hcells : allScalars values shape = .ok cells)
    (helements : ReturnScalars p uninitialized functions env elements cells) :
    ∃ initializers, readTimes (arrayInitializer info shape) values.length (elements ++ rest) =
        .ok (initializers, rest) ∧
      List.Forall₂ (fun expr value => Interpreter.Returns p uninitialized functions expr env value)
        initializers values ∧ ∀ initializer ∈ initializers, Written initializer shape := by
  induction values generalizing cells elements with
  | nil =>
    cases hcells
    cases helements
    exact ⟨[], rfl, List.Forall₂.nil, fun _ h => by cases h⟩
  | cons value values ih =>
    obtain ⟨cells₁, hcells₁, hcells⟩ := bind_eq_ok hcells
    obtain ⟨cells₂, hcells₂, hcells⟩ := bind_eq_ok hcells
    cases hcells
    -- The elements split where the scalars of the first value end.
    have helements₁ := List.forall₂_take_append elements cells₁ cells₂ helements
    have helements₂ := List.forall₂_drop_append elements cells₁ cells₂ helements
    obtain ⟨initializer, hinit, hreturns, hwritten⟩ := h value List.mem_cons_self cells₁
      (elements.take cells₁.length) (elements.drop cells₁.length ++ rest) hcells₁ helements₁
    obtain ⟨initializers, hinits, hall, hwrittens⟩ :=
      ih (fun v hv => h v (List.mem_cons_of_mem _ hv)) hcells₂ helements₂
    refine ⟨initializer :: initializers, ?_, List.Forall₂.cons hreturns hall,
      List.forall_mem_cons.mpr ⟨hwritten, hwrittens⟩⟩
    rw [List.length_cons, readTimes, ← List.take_append_drop cells₁.length elements, List.append_assoc,
      hinit]
    show (readTimes (arrayInitializer info shape) values.length (elements.drop cells₁.length ++ rest) >>= _) = _
    rw [hinits]
    rfl

theorem rebuilds_of_hasShape (info : Meta) {value : ConstantValue} (h : value.HasShape shape) :
    Rebuilds p uninitialized functions env info shape value := by
  induction h with
  | @scalar n =>
    intro cells elements rest hcells helements
    cases hcells
    obtain ⟨element, _, helement, hnil, rfl⟩ := List.forall₂_cons_right_iff.mp helements
    cases hnil
    exact ⟨element, rfl, helement, Written.scalar⟩
  | @array dims values hshape ih =>
    intro cells elements rest hcells helements
    rw [arrayScalars, if_pos rfl] at hcells
    by_cases hzero : values.length = 0
    · have hvalues := List.length_eq_zero_iff.mp hzero
      subst hvalues
      cases hcells
      cases helements
      obtain ⟨inner, hinner⟩ :
          ∃ inner, Interpreter.Returns p uninitialized functions (zeroArray info dims) env inner :=
        Interpreter.returns_zeroArray info dims
      have hreturns := Interpreter.returns_uniformArray info info 0 hinner
      rw [show (modulus 0 p).toNat = 0 by simp [modulus]] at hreturns
      exact ⟨zeroArray info (0 :: dims), rfl, hreturns, written_zeroArray info (0 :: dims)⟩
    · obtain ⟨initializers, hinits, hall, hwrittens⟩ := readTimes_rebuilds ih rest hcells helements
      refine ⟨.arrayInLine info initializers, ?_, Interpreter.returns_arrayInLine info hall hshape, ?_⟩
      · rw [arrayInitializer, if_neg hzero, hinits]
        rfl
      · rw [← hall.length_eq]
        exact Written.arrayInLine hwrittens

end Rebuild

/-! ## Round trips -/

theorem exists_mapM_ok {α β : Type} {f : α → Except Failure β} {l : List α}
    (h : ∀ a ∈ l, ∃ b, f a = .ok b) :
    ∃ bs, l.mapM f = .ok bs ∧ List.Forall₂ (fun a b => f a = .ok b) l bs := by
  induction l with
  | nil => exact ⟨[], rfl, List.Forall₂.nil⟩
  | cons a l ih =>
    obtain ⟨b, hb⟩ := h a List.mem_cons_self
    obtain ⟨bs, hbs, hall⟩ := ih fun a ha => h a (List.mem_cons_of_mem _ ha)
    refine ⟨b :: bs, ?_, List.Forall₂.cons hb hall⟩
    rw [List.mapM_cons, hb, hbs]
    rfl

theorem inField_hasCell {p : ℕ} {value : ConstantValue} (h : value.InField p) (hcell : value.HasCell index n) : n < p :=
  inField_elements h hcell

/-- The coordinates of a shape are its index vectors in row-major order. The elements selected from an
argument that fits have the values of the cells, and the initializer made of them has the value of the argument
and its dimensions. So has the initializer made of the scalars of a constant array. -/
theorem rebuilds_flattened (p : ℕ) (uninitialized : ℤ) (functions : FunctionInfo) (env : Scoped)
    {shape : List ℕ} {count : ℕ} (hcount : elementCount shape = .ok count) :
    ∃ coordinates, indices shape = .ok coordinates ∧ coordinates.length = count ∧ coordinates.Nodup ∧
      coordinates.Pairwise (· < ·) ∧ (∀ index, index ∈ coordinates ↔ Within index shape) ∧
      (∀ expr value, (∀ d ∈ shape, d ≤ p) → Fits expr shape → value.HasShape shape →
        Interpreter.Returns p uninitialized functions expr env value →
        ∃ elements, coordinates.mapM (arrayElement expr) = .ok elements ∧
          List.Forall₂ (fun index element => ∃ n, value.HasCell index n ∧
            Interpreter.Returns p uninitialized functions element env (.scalar n)) coordinates elements ∧
          ∀ info, ∃ initializer, arrayInitializer info shape elements = .ok (initializer, []) ∧
            Interpreter.Returns p uninitialized functions initializer env value ∧
            Written initializer shape) ∧
      ∀ value, value.HasShape shape → value.InField p →
        ∃ scalars, arrayScalars value shape = .ok scalars ∧
          ∀ info, ∃ initializer,
            arrayInitializer info shape (scalars.map fun n : ℕ => .number info (n : ℤ)) =
              .ok (initializer, []) ∧
            Interpreter.Returns p uninitialized functions initializer env value ∧
            Written initializer shape := by
  refine ⟨indexVectors shape, indices_eq hcount, ?_, Lib.nodup_indexVectors shape,
    Lib.pairwise_indexVectors shape, fun _ => Lib.mem_indexVectors, ?_, ?_⟩
  · rw [Lib.length_indexVectors, elementCount_eq_ok hcount]
  · intro expr value hle hfits hshape hreturns
    obtain ⟨cells, hcells, hcell⟩ := hshape.arrayScalars
    have hselect : ∀ index ∈ indexVectors shape, ∃ element, arrayElement expr index = .ok element :=
      fun index hindex => hfits.arrayElement (Lib.mem_indexVectors.mp hindex)
    obtain ⟨elements, helements, helement⟩ := exists_mapM_ok hselect
    obtain ⟨fuel, heval⟩ := hreturns.exists
    have hscalars : ReturnScalars p uninitialized functions env elements cells :=
      forall₂_comp helement hcell fun index element n hindex he hn =>
        Interpreter.returns_arrayElement hfits (Lib.mem_indexVectors.mp hindex) hle heval hn he
    refine ⟨elements, helements, ?_, fun info => ?_⟩
    · refine forall₂_comp (List.forall₂_eq_eq_eq ▸ rfl) helement fun index index' element hindex heq he => ?_
      subst heq
      obtain ⟨n, -, hn⟩ := Lib.forall₂_mem_left hcell hindex
      exact ⟨n, hn, Interpreter.returns_arrayElement hfits (Lib.mem_indexVectors.mp hindex) hle heval hn he⟩
    · have h := rebuilds_of_hasShape info hshape cells elements [] hcells hscalars
      rwa [List.append_nil] at h
  · intro value hshape hfield
    obtain ⟨cells, hcells, hcell⟩ := hshape.arrayScalars
    refine ⟨cells, hcells, fun info => ?_⟩
    have hscalars : ReturnScalars p uninitialized functions env
        (cells.map fun n : ℕ => .number info (n : ℤ)) cells := by
      rw [ReturnScalars, List.forall₂_map_left_iff]
      refine List.forall₂_same.mpr fun n hn => Interpreter.returns_number info ?_
      obtain ⟨index, -, hindex⟩ := Lib.forall₂_mem_right hcell hn
      exact inField_hasCell hfield hindex
    have h := rebuilds_of_hasShape info hshape cells _ [] hcells hscalars
    rwa [List.append_nil] at h

theorem hasShape_pair (m n : ℕ) : (ConstantValue.array [.scalar m, .scalar n]).HasShape [2] := by
  have hscalars : ∀ value ∈ [ConstantValue.scalar m, .scalar n], value.HasShape [] := by
    intro value hvalue
    rcases List.mem_cons.mp hvalue with rfl | hvalue
    · exact ConstantValue.HasShape.scalar
    · rw [List.mem_singleton.mp hvalue]
      exact ConstantValue.HasShape.scalar
  exact ConstantValue.HasShape.array hscalars

/-- `[1, 2]`. -/
def pairArgument : Expression := .arrayInLine ⟨0, 0, none⟩ [numberOf 1, numberOf 2]

theorem fits_pairArgument : Fits pairArgument [2] := by
  have hscalars : ∀ value ∈ [numberOf 1, numberOf 2], Fits value [] := fun _ _ => Fits.scalar
  exact Fits.arrayInLine hscalars

/-- Two elements are selected, and the array made of them is the argument again. -/
theorem rebuilds_flattened_pair :
    ∃ coordinates elements, indices [2] = .ok coordinates ∧ coordinates.length = 2 ∧
      coordinates.mapM (arrayElement pairArgument) = .ok elements ∧
      ∃ initializer, arrayInitializer ⟨0, 0, none⟩ [2] elements = .ok (initializer, []) ∧
        Interpreter.Returns 7 0 ∅ initializer [] (.array [.scalar 1, .scalar 2]) := by
  obtain ⟨coordinates, hindices, hlength, -, -, -, h, -⟩ := @rebuilds_flattened 7 0 ∅ [] [2] 2 rfl
  obtain ⟨elements, helements, -, hrebuilt⟩ := h pairArgument (.array [.scalar 1, .scalar 2])
    (by decide) fits_pairArgument (hasShape_pair 1 2) (@Interpreter.returns_of_eval _ _ _ _ 3 _ _ rfl)
  obtain ⟨initializer, hinitializer, hreturns, -⟩ := hrebuilt ⟨0, 0, none⟩
  exact ⟨coordinates, elements, hindices, hlength, helements, initializer, hinitializer, hreturns⟩

/-- `1 ? [1, 2] : [3]`. -/
def switchArgument : Expression :=
  .inlineSwitchOp ⟨0, 0, none⟩ (numberOf 1) pairArgument (.arrayInLine ⟨0, 0, none⟩ [numberOf 3])

/-- No element is selected from an inline switch whose other branch is too short. A constant that is not a field
element, and an element whose index is not one, evaluate to something else. -/
theorem not_rebuilds_flattened :
    (Interpreter.Returns 7 0 ∅ switchArgument [] (.array [.scalar 1, .scalar 2]) ∧
      (ConstantValue.array [.scalar 1, .scalar 2]).HasShape [2] ∧ indices [2] = .ok [[0], [1]] ∧
      ∃ failure, arrayElement switchArgument [1] = .error failure) ∧
    (arrayScalars (.scalar 7) [] = .ok [7] ∧
      ¬ Interpreter.Returns 7 0 ∅ (numberOf 7) [] (.scalar 7)) ∧
    (Interpreter.Returns 2 0 ∅ (.var ⟨0, 0, none⟩ "a" [])
        [AList.singleton "a" (.array [.scalar 0, .scalar 0, .scalar 1])]
        (.array [.scalar 0, .scalar 0, .scalar 1]) ∧
      indices [3] = .ok [[0], [1], [2]] ∧
      arrayElement (.var ⟨0, 0, none⟩ "a" []) [2] =
        .ok (.var ⟨0, 0, none⟩ "a" [.arrayAccess (numberOf 2)]) ∧
      Interpreter.Returns 2 0 ∅ (.var ⟨0, 0, none⟩ "a" [.arrayAccess (numberOf 2)])
        [AList.singleton "a" (.array [.scalar 0, .scalar 0, .scalar 1])] (.scalar 0)) := by
  refine ⟨⟨?_, hasShape_pair 1 2, rfl, _, rfl⟩, ⟨rfl, fun h => ?_⟩, ?_, rfl, rfl, ?_⟩
  · exact @Interpreter.returns_of_eval _ _ _ _ 4 _ _ rfl
  · have hzero : Interpreter.Returns 7 0 ∅ (numberOf 7) [] (.scalar 0) :=
      @Interpreter.returns_of_eval _ _ _ _ 1 _ _ rfl
    have heq := eq_of_eventually h hzero
    cases heq
  · exact @Interpreter.returns_of_eval _ _ _ _ 2 _ _ rfl
  · exact @Interpreter.returns_of_eval _ _ _ _ 4 _ _ rfl

end Circom.LlzkBackend
