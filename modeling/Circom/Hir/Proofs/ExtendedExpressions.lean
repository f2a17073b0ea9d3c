import Circom.Hir.NormalForm
import Circom.Lib.Outcomes
import Mathlib.Tactic.Tauto

/-!
# The extension of expressions

An expression is extended to one of its kind whose operands are plain. What it needs is put before it, and can be
mapped to normal statements if and only if the conditions of the inline switches are plain.
-/

namespace Circom.Hir.SugarCleaner

open Circom.Ast
open Circom.Lib

variable {α β : Type}
variable {e : Expression} {dimensions : VCT}

/-! ## Runs -/

/-- From every state the computation ends without a panic, with the property. -/
def Always (x : Cleans α) (Q : α → Prop) : Prop := ∀ s, Ensures x s (fun a _ => Q a) fun _ => False

theorem Always.bind {x : Cleans α} {f : α → Cleans β} {P : α → Prop} {Q : β → Prop} (hx : Always x P)
    (hf : ∀ a, P a → Always (f a) Q) : Always (x >>= f) Q :=
  fun s => (hx s).bind fun a t ha => hf a ha t

theorem Always.imp {x : Cleans α} {P Q : α → Prop} (hx : Always x P) (h : ∀ a, P a → Q a) : Always x Q :=
  fun s => (hx s).imp fun a _ ha => h a ha

theorem Always.pure {a : α} {Q : α → Prop} (h : Q a) : Always (Pure.pure a) Q := fun _ => ensures_pure h

theorem Always.get_bind {f : State → Cleans β} {Q : β → Prop} (h : ∀ s, Always (f s) Q) : Always (get >>= f) Q :=
  fun s => ensures_get_bind (h s s)

theorem Always.set_bind {t : State} {f : PUnit → Cleans β} {Q : β → Prop} (h : Always (f ⟨⟩) Q) :
    Always (set t >>= f) Q :=
  fun _ => (ensures_set (Q := fun _ _ => True) trivial).bind fun _ t _ => h t

theorem Always.modify_bind {g : State → State} {f : PUnit → Cleans β} {Q : β → Prop} (h : Always (f ⟨⟩) Q) :
    Always (modify g >>= f) Q :=
  fun _ => (ensures_modify (Q := fun _ _ => True) trivial).bind fun _ t _ => h t

theorem Always.lift {x : Except Failure α} {Q : α → Prop} {a : α} (hx : x = .ok a) (h : Q a) :
    Always (liftM x : Cleans α) Q := by
  intro s
  rw [hx]
  exact ensures_lift (fun b hb => by cases hb; exact h) fun e he => by cases he

theorem produceId_always : Always produceId fun _ => True :=
  .get_bind fun _ => .set_bind (.pure trivial)

/-! ## Expressions after their extension -/

section

variable (concreteDimensions : Meta → VCT)

/-- The second expression is of the kind of the first one, and everything below it is plain, except for the
condition of an inline switch. -/
inductive Extension (dimensions : VCT) : Expression → Expression → Prop where
  | number {info : Meta} {value : ℤ} : Extension dimensions (.number info value) (.number info value)
  | var {info info' : Meta} {name name' : String} {access access' : List Access} (h : PlainAccess access') :
    Extension dimensions (.var info name access) (.var info' name' access')
  | arrayInLine {info : Meta} {values values' : List Expression} {realSize : VCT}
    (hsize : dimensions = values'.length :: realSize) (h : PlainAll values') :
    Extension dimensions (.arrayInLine info values) (.arrayInLine info values')
  | uniformArray {info : Meta} {value value' dimension dimension' : Expression} (h : Plain value')
    (hdimension : Plain dimension') (hcast : (castDimension dimension').isSome) :
    Extension dimensions (.uniformArray info value dimension) (.uniformArray info value' dimension')
  | call {info : Meta} {id : String} {args args' : List Expression} (h : PlainAll args') :
    Extension dimensions (.call info id args) (.call info id args')
  | prefixOp {info : Meta} {op : ExpressionPrefixOpcode} {rhe rhe' : Expression} (h : Plain rhe') :
    Extension dimensions (.prefixOp info op rhe) (.prefixOp info op rhe')
  | infixOp {info : Meta} {op : ExpressionInfixOpcode} {lhe lhe' rhe rhe' : Expression} (hl : Plain lhe')
    (hr : Plain rhe') : Extension dimensions (.infixOp info lhe op rhe) (.infixOp info lhe' op rhe')
  | inlineSwitchOp {info : Meta} {cond ifTrue ifTrue' ifFalse ifFalse' : Expression} (ht : Plain ifTrue')
    (hf : Plain ifFalse') :
    Extension dimensions (.inlineSwitchOp info cond ifTrue ifFalse) (.inlineSwitchOp info cond ifTrue' ifFalse')

end

/-- Everything below the expression is plain, except for the condition of an inline switch. -/
def Filtered : Expression → Prop
  | .infixOp _ lhe _ rhe => Plain lhe ∧ Plain rhe
  | .prefixOp _ _ rhe => Plain rhe
  | .inlineSwitchOp _ _ ifTrue ifFalse => Plain ifTrue ∧ Plain ifFalse
  | .var _ _ access => PlainAccess access
  | .number .. => True
  | .call _ _ args => PlainAll args
  | .arrayInLine _ values => PlainAll values
  | .uniformArray _ value dimension => Plain value ∧ (castDimension dimension).isSome
  | _ => False

namespace Extension

variable {dimensions : VCT} {e e' : Expression}

theorem filtered (h : Extension dimensions e e') : Filtered e' := by
  cases h with
  | number => trivial
  | var h => exact h
  | arrayInLine _ h => exact h
  | uniformArray h _ hcast => exact ⟨h, hcast⟩
  | call h => exact h
  | prefixOp h => exact h
  | infixOp hl hr => exact ⟨hl, hr⟩
  | inlineSwitchOp ht hf => exact ⟨ht, hf⟩

theorem condition_iff (h : Extension dimensions e e') : PlainCondition e' ↔ PlainCondition e := by
  cases h <;> exact Iff.rfl

theorem isSwitch_eq (h : Extension dimensions e e') : isSwitch e' = isSwitch e := by
  cases h <;> rfl

theorem isArray_eq (h : Extension dimensions e e') : isArray e' = isArray e := by
  cases h <;> rfl

theorem notSugar_iff (h : Extension dimensions e e') : NotSugar e' ↔ NotSugar e := by
  cases h <;> exact Iff.rfl

end Extension

theorem plain_iff_of_filtered (h : Filtered e) : Plain e ↔ NotSugar e := by
  cases e with
  | infixOp info lhe op rhe => exact ⟨fun _ => rfl, fun _ => h⟩
  | prefixOp info op rhe => exact ⟨fun _ => rfl, fun _ => h⟩
  | inlineSwitchOp info cond ifTrue ifFalse => exact ⟨False.elim, fun hs => by cases hs⟩
  | var info name access => exact ⟨fun _ => rfl, fun _ => h⟩
  | number info value => exact ⟨fun _ => rfl, fun _ => h⟩
  | call info id args => exact ⟨False.elim, fun hs => by cases hs⟩
  | arrayInLine info values => exact ⟨False.elim, fun hs => by cases hs⟩
  | uniformArray info value dimension => exact ⟨False.elim, fun hs => by cases hs⟩
  | parallelOp info rhe => exact h.elim
  | busCall info id args => exact h.elim
  | anonymousComp info id isParallel params signals names => exact h.elim
  | tuple info values => exact h.elim

theorem plainCondition_of_notSugar (h : NotSugar e) : PlainCondition e := by
  cases e with
  | inlineSwitchOp info cond ifTrue ifFalse => cases h
  | _ => trivial

/-- The sides of an equality have the same length where both are arrays. -/
def SidesFit : Expression → Expression → Prop
  | .uniformArray .., _ => False
  | _, .uniformArray .. => False
  | .arrayInLine _ values, .arrayInLine _ values' => values.length = values'.length
  | _, _ => True

/-- What a statement of a block is before the mappings. -/
def Ready : Statement → Prop
  | .substitution _ _ access _ rhe => PlainAccess access ∧ Filtered rhe
  | .constraintEquality _ lhe rhe => Filtered lhe ∧ Filtered rhe ∧ SidesFit lhe rhe
  | .returnStmt _ value => Filtered value
  | _ => True

/-- The mappings make normal statements of the statement. -/
def Settled : Statement → Prop
  | .substitution _ _ _ _ rhe => PlainCondition rhe
  | .constraintEquality _ lhe rhe => (isArray lhe ∨ isArray rhe) ∨ NotSugar lhe ∧ NotSugar rhe
  | .returnStmt _ value => PlainCondition value
  | stmt => Normal stmt

def AllReady (stmts : List Statement) : Prop := ∀ stmt ∈ stmts, Ready stmt

def AllSettled (stmts : List Statement) : Prop := ∀ stmt ∈ stmts, Settled stmt

theorem AllReady.append {stmts stmts' : List Statement} (h : AllReady stmts) (h' : AllReady stmts') :
    AllReady (stmts ++ stmts') :=
  List.forall_mem_append.mpr ⟨h, h'⟩

theorem allSettled_append {stmts stmts' : List Statement} :
    AllSettled (stmts ++ stmts') ↔ AllSettled stmts ∧ AllSettled stmts' :=
  List.forall_mem_append

theorem allReady_nil : AllReady [] := fun _ h => by cases h

theorem allSettled_nil : AllSettled [] := fun _ h => by cases h

/-! ## The filter -/

theorem filterOne_always (h : Filtered e) :
    Always (filterOne e) fun r => Plain r.1 ∧ AllReady r.2 ∧ (AllSettled r.2 ↔ PlainCondition e) := by
  unfold filterOne
  by_cases hsugar : isSugar e
  · rw [if_pos hsugar]
    refine produceId_always.bind fun id _ => .pure ⟨trivial, ?_, ?_⟩
    · intro stmt hstmt
      rcases List.mem_cons.mp hstmt with rfl | hstmt
      · trivial
      · cases List.mem_singleton.mp hstmt
        exact ⟨trivial, h⟩
    · constructor
      · intro hsettled
        exact hsettled _ (List.mem_cons_of_mem _ (List.mem_singleton.mpr rfl))
      · intro hcondition stmt hstmt
        rcases List.mem_cons.mp hstmt with rfl | hstmt
        · trivial
        · cases List.mem_singleton.mp hstmt
          exact hcondition
  · rw [if_neg hsugar]
    have hnot : NotSugar e := Bool.eq_false_iff.mpr hsugar
    exact .pure ⟨(plain_iff_of_filtered h).mpr hnot, allReady_nil,
      fun _ => plainCondition_of_notSugar hnot, fun _ => allSettled_nil⟩

theorem sugarFilter_always : ∀ {elements : List Expression}, (∀ e ∈ elements, Filtered e) →
    Always (sugarFilter elements) fun r => PlainAll r.1 ∧ r.1.length = elements.length ∧ AllReady r.2 ∧
      (AllSettled r.2 ↔ ∀ e ∈ elements, PlainCondition e)
  | [], _ => .pure ⟨trivial, rfl, allReady_nil, (fun _ _ h => by cases h), fun _ => allSettled_nil⟩
  | elem :: elements, h => by
    obtain ⟨helem, helements⟩ := List.forall_mem_cons.mp h
    refine (filterOne_always helem).bind fun r hr => (sugarFilter_always helements).bind fun r' hr' => .pure ?_
    obtain ⟨hplain, hready, hsettled⟩ := hr
    obtain ⟨hplain', hlength, hready', hsettled'⟩ := hr'
    refine ⟨⟨hplain, hplain'⟩, congrArg (· + 1) hlength, hready.append hready', ?_⟩
    rw [allSettled_append, List.forall_mem_cons, hsettled, hsettled']

/-! ## Expressions -/

theorem filterOne_number (info : Meta) (value : ℤ) :
    filterOne (.number info value) = Pure.pure (.number info value, []) := rfl

theorem castDimension_isSome {dimension : ℕ} (h : dimension < 2 ^ 64) (info : Meta) :
    (castDimension (.number info dimension)).isSome := by
  have hrange : (0 : ℤ) ≤ dimension ∧ (dimension : ℤ) < 2 ^ 64 := by omega
  unfold castDimension
  dsimp only
  rw [if_pos hrange]
  rfl

/-- A dimension is a number. -/
theorem castDimension_eq_number {dimension : Expression} (h : (castDimension dimension).isSome) :
    ∃ info value, dimension = .number info value := by
  cases dimension with
  | number info value => exact ⟨info, value, rfl⟩
  | _ => cases h

theorem extendZeros_always (info : Meta) : ∀ {dimensions : List ℕ}, (∀ dimension ∈ dimensions, dimension < 2 ^ 64) →
    Always (extendZeros info dimensions) fun r =>
      Filtered r.1 ∧ PlainCondition r.1 ∧ AllReady r.2 ∧ AllSettled r.2
  | [], _ => .pure ⟨trivial, trivial, allReady_nil, allSettled_nil⟩
  | dimension :: dimensions, h => by
    obtain ⟨hdimension, hdimensions⟩ := List.forall_mem_cons.mp h
    unfold extendZeros
    refine (extendZeros_always info hdimensions).bind fun r hr => ?_
    obtain ⟨hfiltered, hcondition, hready, hsettled⟩ := hr
    refine (filterOne_always hfiltered).bind fun r' hr' => ?_
    obtain ⟨hplain, hready', hsettled'⟩ := hr'
    -- the dimension is a number, which is left as it is
    rw [filterOne_number]
    refine .pure ⟨⟨hplain, castDimension_isSome hdimension info⟩, trivial, ?_, ?_⟩
    · exact (hready.append hready').append allReady_nil
    · exact allSettled_append.mpr ⟨allSettled_append.mpr ⟨hsettled, hsettled'.mpr hcondition⟩, allSettled_nil⟩

/-- The padding changes nothing about the conditions, and gives the array its size. -/
theorem padArray_always (info : Meta) {size : ℕ} {realSize : List ℕ} {values : List Expression}
    (hsize : values.length ≤ size) (hreal : ∀ dimension ∈ realSize, dimension < 2 ^ 64)
    (hvalues : ∀ v ∈ values, Filtered v) :
    Always (padArray info size realSize values) fun r => r.1.length = size ∧ (∀ v ∈ r.1, Filtered v) ∧
      ((∀ v ∈ r.1, PlainCondition v) ↔ ∀ v ∈ values, PlainCondition v) ∧ AllReady r.2 ∧ AllSettled r.2 := by
  unfold padArray
  by_cases hlt : values.length < size
  · rw [if_pos hlt]
    refine (extendZeros_always info hreal).bind fun r hr => ?_
    obtain ⟨zeros, inits⟩ := r
    obtain ⟨hfiltered, hcondition, hready, hsettled⟩ := hr
    refine .pure ⟨?_, ?_, ?_, hready, hsettled⟩
    · rw [List.length_append, List.length_replicate]
      omega
    · refine List.forall_mem_append.mpr ⟨hvalues, fun v hv => ?_⟩
      rw [List.eq_of_mem_replicate hv]
      exact hfiltered
    · rw [List.forall_mem_append]
      refine ⟨And.left, fun h => ⟨h, fun v hv => ?_⟩⟩
      rw [List.eq_of_mem_replicate hv]
      exact hcondition
  · rw [if_neg hlt]
    exact .pure ⟨Nat.le_antisymm hsize (Nat.le_of_not_lt hlt), hvalues, Iff.rfl, allReady_nil, allSettled_nil⟩

theorem plainAll_iff {exprs : List Expression} : PlainAll exprs ↔ ∀ e ∈ exprs, Plain e := by
  induction exprs with
  | nil => exact ⟨(fun _ _ h => by cases h), fun _ => trivial⟩
  | cons e exprs ih =>
    rw [List.forall_mem_cons, ← ih]
    rfl

theorem powerExponent_plain {op : ExpressionInfixOpcode} {info : Meta} {lhe rhe : Expression} (h : Plain rhe) :
    Plain (powerExponent op info lhe rhe) := by
  unfold powerExponent
  by_cases hop : op = .pow
  · rw [if_pos hop]
    split
    · split
      · exact ⟨trivial, h⟩
      · exact h
    · split
      · exact ⟨trivial, h⟩
      · exact h
    · exact h
  · rw [if_neg hop]
    exact h

variable {concreteDimensions : Meta → VCT} {context : Context}

/-- The extension of an expression: what comes before it is settled if and only if the conditions inside are plain. -/
structure Extended (dimensions : VCT) (e : Expression) (r : Expression × List Statement) : Prop where
  extension : Extension dimensions e r.1
  ready : AllReady r.2
  settled : AllSettled r.2 ↔ PlainInside e

/-- An expression that is extended and filtered. -/
structure Extracted (e : Expression) (r : Expression × List Statement) : Prop where
  plain : Plain r.1
  ready : AllReady r.2
  settled : AllSettled r.2 ↔ PlainConditions e

/-- What the filter adds after an extension. -/
theorem Extended.filterOne {r : Expression × List Statement}
    (h : Extended dimensions e r) : Always (filterOne r.1) fun r' => Extracted e (r'.1, r.2 ++ r'.2) :=
  (filterOne_always h.extension.filtered).imp fun r' hr' =>
    ⟨hr'.1, h.ready.append hr'.2.1, by
      rw [allSettled_append, h.settled, hr'.2.2, h.extension.condition_iff, and_comm]
      rfl⟩

theorem closeVariable_always {info : Meta} {name : String} {access access' : List Access} {inits : List Statement}
    (inside : Bool) (haccess : PlainAccess access') (hready : AllReady inits) :
    Always (closeVariable context info name access' inits inside) fun r =>
      Extension dimensions (.var info name access) r.1 ∧ AllReady r.2 ∧ (AllSettled r.2 ↔ AllSettled inits) := by
  refine .modify_bind ?_
  by_cases hmixed : inside ∧ name ∈ context.mixedComponents
  · rw [if_pos hmixed]
    refine produceId_always.bind fun id _ => .pure ⟨.var trivial, hready.append ?_, ?_⟩
    · intro stmt hstmt
      rcases List.mem_cons.mp hstmt with rfl | hstmt
      · trivial
      · cases List.mem_singleton.mp hstmt
        exact ⟨trivial, haccess⟩
    · rw [allSettled_append]
      refine ⟨And.left, fun h => ⟨h, fun stmt hstmt => ?_⟩⟩
      rcases List.mem_cons.mp hstmt with rfl | hstmt
      · trivial
      · cases List.mem_singleton.mp hstmt
        trivial
  · rw [if_neg hmixed]
    exact .pure ⟨.var haccess, hready, Iff.rfl⟩

/-- Lists of expressions that are extended, before the filter. -/
structure ExtendedAll (exprs : List Expression) (r : List Expression × List Statement) : Prop where
  length : r.1.length = exprs.length
  filtered : ∀ e ∈ r.1, Filtered e
  ready : AllReady r.2
  settled : (∀ e ∈ r.1, PlainCondition e) ∧ AllSettled r.2 ↔ PlainInsideAll exprs

theorem extendedAll_nil : ExtendedAll [] ([], []) :=
  ⟨rfl, (fun _ h => by cases h), allReady_nil, fun _ => trivial, fun _ => ⟨(fun _ h => by cases h), allSettled_nil⟩⟩

theorem ExtendedAll.cons {exprs : List Expression}
    {r : Expression × List Statement} {r' : List Expression × List Statement} (h : Extended dimensions e r)
    (h' : ExtendedAll exprs r') : ExtendedAll (e :: exprs) (r.1 :: r'.1, r.2 ++ r'.2) where
  length := congrArg (· + 1) h'.length
  filtered := List.forall_mem_cons.mpr ⟨h.extension.filtered, h'.filtered⟩
  ready := h.ready.append h'.ready
  settled := by
    show _ ↔ (PlainCondition e ∧ PlainInside e) ∧ PlainInsideAll exprs
    rw [List.forall_mem_cons, allSettled_append, h.extension.condition_iff, h.settled, ← h'.settled]
    tauto

theorem extracted_pair {e' : Expression} {r₁ r₂ : Expression × List Statement} {inits₁ inits₂ : List Statement}
    (h : Extracted e (r₁.1, inits₁ ++ r₁.2)) (h' : Extracted e' (r₂.1, inits₂ ++ r₂.2)) :
    AllReady (inits₁ ++ inits₂ ++ (r₁.2 ++ r₂.2)) ∧
      (AllSettled (inits₁ ++ inits₂ ++ (r₁.2 ++ r₂.2)) ↔ PlainConditions e ∧ PlainConditions e') := by
  have hready := List.forall_mem_append.mp h.ready
  have hready' := List.forall_mem_append.mp h'.ready
  refine ⟨AllReady.append (AllReady.append hready.1 hready'.1) (AllReady.append hready.2 hready'.2), ?_⟩
  rw [← h.settled, ← h'.settled, allSettled_append, allSettled_append, allSettled_append, allSettled_append,
    allSettled_append]
  tauto

mutual

theorem extendExpression_always : ∀ (e : Expression) (dimensions : VCT),
    ProducedExpression concreteDimensions dimensions e →
    Always (extendExpression concreteDimensions context dimensions e) (Extended dimensions e)
  | .number .., _, _ => .pure ⟨.number, allReady_nil, fun _ => trivial, fun _ => allSettled_nil⟩
  | .var info name access, dimensions, h =>
    .get_bind fun state => .set_bind <| (extendIndexes_always access h).bind fun r hr => by
      obtain ⟨hplain, hready, hsettled⟩ := hr
      exact (closeVariable_always state.insideMixedComponent hplain hready).imp fun r' hr' =>
        ⟨hr'.1, hr'.2.1, hr'.2.2.trans hsettled⟩
  | .arrayInLine info values, [], h => h.elim
  | .arrayInLine info values, size :: realSize, h => by
    obtain ⟨hsize, hreal, hvalues⟩ := h
    refine (extendElements_always values realSize hvalues).bind fun r hr => ?_
    refine (padArray_always info (hr.length ▸ hsize) hreal hr.filtered).bind fun r' hr' => ?_
    obtain ⟨hlength, hfiltered, hcondition, hready, hsettled⟩ := hr'
    refine (sugarFilter_always hfiltered).bind fun r'' hr'' => .pure ?_
    obtain ⟨hplain, hlength', hready', hsettled'⟩ := hr''
    have hsize' : size :: realSize = r''.1.length :: realSize := by rw [hlength', hlength]
    refine ⟨.arrayInLine hsize' hplain, (hr.ready.append hready).append hready', ?_⟩
    · show _ ↔ PlainInsideAll values
      rw [allSettled_append, allSettled_append, hsettled', hcondition, ← hr.settled]
      tauto
  | .uniformArray info value dimension, _, h => by
    obtain ⟨hvalue, hcast⟩ := h
    obtain ⟨info', n, rfl⟩ := castDimension_eq_number hcast
    refine (extendExpression_always value _ hvalue).bind fun r hr => ?_
    -- the dimension is a number, which is neither extended nor extracted
    refine (Always.pure (Q := (· = (.number info' n, []))) rfl).bind fun r₁ hr₁ => hr.filterOne.bind fun r' hr' => ?_
    subst hr₁
    refine (Always.pure (Q := (· = (.number info' n, []))) rfl).bind fun r₂ hr₂ => .pure ?_
    subst hr₂
    rw [List.append_nil, List.append_nil]
    exact ⟨.uniformArray hr'.plain trivial hcast, hr'.ready, hr'.settled⟩
  | .call info id args, _, h => by
    refine (extendArgs_always args h).bind fun r hr => (sugarFilter_always hr.filtered).bind fun r' hr' => .pure ?_
    obtain ⟨hplain, _, hready, hsettled⟩ := hr'
    refine ⟨.call hplain, hr.ready.append hready, ?_⟩
    show _ ↔ PlainInsideAll args
    rw [allSettled_append, hsettled, ← hr.settled, and_comm]
  | .prefixOp info op rhe, _, h =>
    (extendExpression_always rhe _ h).bind fun _ hr => hr.filterOne.bind fun _ hr' =>
      .pure ⟨.prefixOp hr'.plain, hr'.ready, hr'.settled⟩
  | .infixOp info lhe op rhe, _, h =>
    (extendExpression_always lhe _ h.1).bind fun _ hl => (extendExpression_always rhe _ h.2).bind fun _ hr =>
      hl.filterOne.bind fun _ hl' => hr.filterOne.bind fun _ hr' =>
        .pure ⟨.infixOp hl'.plain (powerExponent_plain hr'.plain), (extracted_pair hl' hr').1, (extracted_pair hl' hr').2⟩
  | .inlineSwitchOp info cond ifTrue ifFalse, _, h =>
    (extendExpression_always ifTrue _ h.1).bind fun _ ht => (extendExpression_always ifFalse _ h.2).bind fun _ hf =>
      ht.filterOne.bind fun _ ht' => hf.filterOne.bind fun _ hf' =>
        .pure ⟨.inlineSwitchOp ht'.plain hf'.plain, (extracted_pair ht' hf').1, (extracted_pair ht' hf').2⟩
  | .parallelOp .., _, h => h.elim
  | .busCall .., _, h => h.elim
  | .anonymousComp .., _, h => h.elim
  | .tuple .., _, h => h.elim

theorem extendIndexes_always : ∀ access : List Access, ProducedAccess concreteDimensions access →
    Always (extendIndexes concreteDimensions context access) fun r =>
      PlainAccess r.1 ∧ AllReady r.2 ∧ (AllSettled r.2 ↔ PlainInsideAccess access)
  | [], _ => .pure ⟨trivial, allReady_nil, fun _ => trivial, fun _ => allSettled_nil⟩
  | .componentAccess name :: access, h => (extendIndexes_always access h).bind fun _ hr => .pure hr
  | .arrayAccess index :: access, h => by
    refine (extendExpression_always index _ h.1).bind fun r hr => hr.filterOne.bind fun r' hr' =>
      (extendIndexes_always access h.2).bind fun r'' hr'' => .pure ⟨⟨hr'.plain, hr''.1⟩, hr'.ready.append hr''.2.1, ?_⟩
    rw [allSettled_append, hr'.settled, hr''.2.2]
    rfl

theorem extendElements_always : ∀ (values : List Expression) (realSize : VCT),
    ProducedElements concreteDimensions realSize values →
    Always (extendElements concreteDimensions context realSize values) (ExtendedAll values)
  | [], _, _ => .pure extendedAll_nil
  | value :: values, realSize, h =>
    (extendExpression_always value realSize h.1).bind fun _ hr =>
      (extendElements_always values realSize h.2).bind fun _ hr' => .pure (.cons hr hr')

theorem extendArgs_always : ∀ args : List Expression, ProducedArgs concreteDimensions args →
    Always (extendArgs concreteDimensions context args) (ExtendedAll args)
  | [], _ => .pure extendedAll_nil
  | arg :: args, h =>
    (extendExpression_always arg _ h.1).bind fun _ hr =>
      (extendArgs_always args h.2).bind fun _ hr' => .pure (.cons hr hr')

end

end Circom.Hir.SugarCleaner
