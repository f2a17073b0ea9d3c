import Circom.Hir.Proofs.ExtendedExpressions

/-!
# The removal of syntactic sugar reaches its normal form where it looks

A block maps its substitutions, equalities and returns to normal statements. So the normal form is reached if and
only if the sugar of the program is where it is extracted, and then the translation panics nowhere.
-/

namespace Circom.Hir.SugarCleaner

open Circom.Ast
open Circom.Lib

variable {concreteDimensions : Meta → VCT} {context : Context}
variable {e lhe rhe : Expression} {stmts : List Statement}

/-! ## The mappings of a block -/

/-- What is known of a statement after the mapping of substitutions. -/
def ReadyEquality : Statement → Prop
  | .substitution .. => True
  | stmt => Ready stmt

def SettledEquality : Statement → Prop
  | .substitution info var access op rhe => Normal (.substitution info var access op rhe)
  | stmt => Settled stmt

/-- What is known of a statement after the mapping of equalities. -/
def ReadyReturn : Statement → Prop
  | .returnStmt _ value => Filtered value
  | _ => True

def SettledReturn : Statement → Prop
  | .returnStmt _ value => PlainCondition value
  | stmt => Normal stmt

/-- A mapping that turns one pair of properties of each statement into another one. -/
theorem replaceAll_ok {replace : Statement → Except Failure (List Statement)} {R S R' S' : Statement → Prop}
    (h : ∀ stmt, R stmt → ∃ out, replace stmt = .ok out ∧ (∀ t ∈ out, R' t) ∧ ((∀ t ∈ out, S' t) ↔ S stmt))
    (hstmts : ∀ stmt ∈ stmts, R stmt) :
    ∃ out, replaceAll replace stmts = .ok out ∧ (∀ t ∈ out, R' t) ∧
      ((∀ t ∈ out, S' t) ↔ ∀ stmt ∈ stmts, S stmt) := by
  induction stmts with
  | nil => exact ⟨[], rfl, (fun _ ht => by cases ht), (fun _ _ ht => by cases ht), fun _ _ ht => by cases ht⟩
  | cons stmt stmts ih =>
    obtain ⟨hstmt, hstmts⟩ := List.forall_mem_cons.mp hstmts
    obtain ⟨out, hout, hready, hsettled⟩ := h stmt hstmt
    obtain ⟨out', hout', hready', hsettled'⟩ := ih hstmts
    refine ⟨out ++ out', ?_, List.forall_mem_append.mpr ⟨hready, hready'⟩, ?_⟩
    · unfold replaceAll
      rw [hout, hout']
      rfl
    · rw [List.forall_mem_append, List.forall_mem_cons, hsettled, hsettled']

theorem normalRhs_of_plain (h : Plain e) : NormalRhs e := by
  cases e with
  | call info id args => exact h.elim
  | _ => exact h

theorem plainAccess_append_index {access : List Access} (h : PlainAccess access) (info : Meta) (index : ℕ) :
    PlainAccess (access ++ [.arrayAccess (.number info index)]) := by
  induction access with
  | nil => exact ⟨trivial, trivial⟩
  | cons a access ih =>
    cases a with
    | componentAccess name => exact ih h
    | arrayAccess index => exact ⟨h.1, ih h.2⟩

theorem forall_mem_singleton_iff {P : Statement → Prop} {stmt : Statement} {p : Prop} (h : P stmt ↔ p) :
    (∀ t ∈ [stmt], P t) ↔ p := by
  rw [List.forall_mem_singleton, h]

/-- All statements of a list are what they have to be, and so is the one that they come from. -/
theorem forall_mem_iff_of_forall {P : Statement → Prop} {p : Prop} (h : ∀ t ∈ stmts, P t)
    (hp : p) : (∀ t ∈ stmts, P t) ↔ p :=
  ⟨fun _ => hp, fun _ => h⟩

theorem intoSingleSubstitution_ok (stmt : Statement) (h : Ready stmt) :
    ∃ out, intoSingleSubstitution stmt = .ok out ∧ (∀ t ∈ out, ReadyEquality t) ∧
      ((∀ t ∈ out, SettledEquality t) ↔ Settled stmt) := by
  cases stmt with
  | substitution info var access op rhe =>
    obtain ⟨haccess, hrhe⟩ := h
    cases rhe with
    | inlineSwitchOp info' cond ifTrue ifFalse =>
      refine ⟨_, rfl, List.forall_mem_singleton.mpr trivial, forall_mem_singleton_iff ?_⟩
      exact ⟨And.left, fun hcond => ⟨hcond, ⟨⟨haccess, normalRhs_of_plain hrhe.1⟩, trivial⟩,
        ⟨haccess, normalRhs_of_plain hrhe.2⟩, trivial⟩⟩
    | arrayInLine info' values =>
      refine ⟨_, rfl, fun t ht => ?_, forall_mem_iff_of_forall (fun t ht => ?_) trivial⟩
      · obtain ⟨index, hindex, rfl⟩ := List.mem_mapIdx.mp ht
        trivial
      · obtain ⟨index, hindex, rfl⟩ := List.mem_mapIdx.mp ht
        exact ⟨plainAccess_append_index haccess info index,
          normalRhs_of_plain (plainAll_iff.mp hrhe _ (List.getElem_mem hindex))⟩
    | uniformArray info' value dimension =>
      obtain ⟨n, hn⟩ := Option.isSome_iff_exists.mp hrhe.2
      refine ⟨(List.range n).map fun (index : ℕ) =>
        .substitution info var (access ++ [.arrayAccess (.number info index)]) op value, ?_, fun t ht => ?_,
        forall_mem_iff_of_forall (fun t ht => ?_) trivial⟩
      · unfold intoSingleSubstitution
        dsimp only
        rw [hn]
      · obtain ⟨index, hindex, rfl⟩ := List.mem_map.mp ht
        trivial
      · obtain ⟨index, hindex, rfl⟩ := List.mem_map.mp ht
        exact ⟨plainAccess_append_index haccess info index, normalRhs_of_plain hrhe.1⟩
    | call info' id args =>
      exact ⟨_, rfl, List.forall_mem_singleton.mpr trivial,
        forall_mem_singleton_iff ⟨fun _ => trivial, fun _ => ⟨haccess, hrhe⟩⟩⟩
    | infixOp info' lhe op' rhe =>
      exact ⟨_, rfl, List.forall_mem_singleton.mpr trivial,
        forall_mem_singleton_iff ⟨fun _ => trivial, fun _ => ⟨haccess, hrhe⟩⟩⟩
    | prefixOp info' op' rhe =>
      exact ⟨_, rfl, List.forall_mem_singleton.mpr trivial,
        forall_mem_singleton_iff ⟨fun _ => trivial, fun _ => ⟨haccess, hrhe⟩⟩⟩
    | var info' name access' =>
      exact ⟨_, rfl, List.forall_mem_singleton.mpr trivial,
        forall_mem_singleton_iff ⟨fun _ => trivial, fun _ => ⟨haccess, hrhe⟩⟩⟩
    | number info' value =>
      exact ⟨_, rfl, List.forall_mem_singleton.mpr trivial,
        forall_mem_singleton_iff ⟨fun _ => trivial, fun _ => ⟨haccess, trivial⟩⟩⟩
    | parallelOp info' rhe => exact hrhe.elim
    | busCall info' id args => exact hrhe.elim
    | anonymousComp info' id isParallel params signals names => exact hrhe.elim
    | tuple info' values => exact hrhe.elim
  | _ => exact ⟨_, rfl, List.forall_mem_singleton.mpr h, forall_mem_singleton_iff Iff.rfl⟩

/-- The equalities of the elements of an array with another expression are normal, whatever the other one is. -/
theorem lheArrayCe_ok (info : Meta) (harray : isArray lhe) (hl : Filtered lhe) (hr : Filtered rhe)
    (hfit : SidesFit lhe rhe) :
    ∃ out, lheArrayCe info lhe rhe = .ok out ∧ (∀ t ∈ out, ReadyReturn t) ∧ ∀ t ∈ out, SettledReturn t := by
  cases lhe with
  | arrayInLine infoL valuesL =>
    have hvalues := plainAll_iff.mp hl
    cases rhe with
    | arrayInLine infoR valuesR =>
      have hlength : valuesL.length = valuesR.length := hfit
      refine ⟨List.zipWith (.constraintEquality info) valuesL valuesR, if_pos (Nat.le_of_eq hlength), fun t ht => ?_,
        fun t ht => ?_⟩
      · obtain ⟨i, hi, rfl⟩ := List.mem_iff_getElem.mp ht
        rw [List.getElem_zipWith]
        trivial
      · obtain ⟨i, hi, rfl⟩ := List.mem_iff_getElem.mp ht
        rw [List.getElem_zipWith]
        exact ⟨hvalues _ (List.getElem_mem _), plainAll_iff.mp hr _ (List.getElem_mem _)⟩
    | var infoR name access =>
      refine ⟨_, rfl, fun t ht => ?_, fun t ht => ?_⟩
      · obtain ⟨index, hindex, rfl⟩ := List.mem_mapIdx.mp ht
        trivial
      · obtain ⟨index, hindex, rfl⟩ := List.mem_mapIdx.mp ht
        exact ⟨hvalues _ (List.getElem_mem hindex), plainAccess_append_index hr info index⟩
    | uniformArray infoR value dimension => exact hfit.elim
    | _ => exact ⟨[], rfl, (fun t ht => by cases ht), fun t ht => by cases ht⟩
  | uniformArray infoL value dimension => exact hfit.elim
  | _ => cases harray

theorem sidesFit_symm (h : SidesFit lhe rhe) : SidesFit rhe lhe := by
  cases lhe <;> cases rhe <;> first | exact h | exact Eq.symm h

theorem intoSingleConstraintEquality_ok (stmt : Statement) (h : ReadyEquality stmt) :
    ∃ out, intoSingleConstraintEquality stmt = .ok out ∧ (∀ t ∈ out, ReadyReturn t) ∧
      ((∀ t ∈ out, SettledReturn t) ↔ SettledEquality stmt) := by
  cases stmt with
  | constraintEquality info lhe rhe =>
    obtain ⟨hl, hr, hfit⟩ := h
    unfold intoSingleConstraintEquality
    dsimp only
    by_cases hlhe : isArray lhe
    · rw [if_pos hlhe]
      obtain ⟨out, hout, hready, hsettled⟩ := lheArrayCe_ok info hlhe hl hr hfit
      exact ⟨out, hout, hready, forall_mem_iff_of_forall hsettled (.inl (.inl hlhe))⟩
    · rw [if_neg hlhe]
      by_cases hrhe : isArray rhe
      · rw [if_pos hrhe]
        obtain ⟨out, hout, hready, hsettled⟩ := lheArrayCe_ok info hrhe hr hl (sidesFit_symm hfit)
        exact ⟨out, hout, hready, forall_mem_iff_of_forall hsettled (.inl (.inr hrhe))⟩
      · rw [if_neg hrhe]
        refine ⟨_, rfl, List.forall_mem_singleton.mpr trivial, forall_mem_singleton_iff ?_⟩
        show Plain lhe ∧ Plain rhe ↔ (isArray lhe ∨ isArray rhe) ∨ NotSugar lhe ∧ NotSugar rhe
        rw [plain_iff_of_filtered hl, plain_iff_of_filtered hr]
        exact ⟨.inr, fun hsettled => hsettled.resolve_left fun harray => harray.elim hlhe hrhe⟩
  | returnStmt info value => exact ⟨_, rfl, List.forall_mem_singleton.mpr h, forall_mem_singleton_iff Iff.rfl⟩
  | _ => exact ⟨_, rfl, List.forall_mem_singleton.mpr trivial, forall_mem_singleton_iff Iff.rfl⟩

theorem normalAll_iff : NormalAll stmts ↔ ∀ stmt ∈ stmts, Normal stmt := by
  induction stmts with
  | nil => exact ⟨(fun _ _ h => by cases h), fun _ => trivial⟩
  | cons stmt stmts ih =>
    rw [List.forall_mem_cons, ← ih]
    rfl

theorem lengths_plain (info : Meta) (dimensions : VCT) :
    PlainAll (dimensions.map fun (length : ℕ) => .number info length) := by
  refine plainAll_iff.mpr fun e he => ?_
  obtain ⟨length, _, rfl⟩ := List.mem_map.mp he
  trivial

/-- A substitution of an array or an inline switch is mapped to normal statements if the condition is plain. -/
theorem intoSingleSubstitution_normal (info : Meta) (var : String) {access : List Access} (op : AssignOp)
    (haccess : PlainAccess access) (hrhe : Filtered rhe) :
    ∃ out, intoSingleSubstitution (.substitution info var access op rhe) = .ok out ∧
      ((∀ t ∈ out, SettledEquality t) ↔ PlainCondition rhe) ∧ ∀ t ∈ out, SettledEquality t ↔ Normal t := by
  obtain ⟨out, hout, -, hsettled⟩ :=
    intoSingleSubstitution_ok (.substitution info var access op rhe) ⟨haccess, hrhe⟩
  refine ⟨out, hout, hsettled, fun t ht => ?_⟩
  cases rhe with
  | inlineSwitchOp info' cond ifTrue ifFalse =>
    cases hout
    cases List.mem_singleton.mp ht
    exact Iff.rfl
  | arrayInLine info' values =>
    cases hout
    obtain ⟨index, hindex, rfl⟩ := List.mem_mapIdx.mp ht
    exact Iff.rfl
  | uniformArray info' value dimension =>
    obtain ⟨n, hn⟩ := Option.isSome_iff_exists.mp hrhe.2
    unfold intoSingleSubstitution at hout
    dsimp only at hout
    rw [hn] at hout
    cases hout
    obtain ⟨index, hindex, rfl⟩ := List.mem_map.mp ht
    exact Iff.rfl
  | _ =>
    cases hout
    cases List.mem_singleton.mp ht
    exact Iff.rfl

theorem mapReturns_ok (concreteDimensions : Meta → VCT) (stmts : List Statement)
    (h : ∀ stmt ∈ stmts, ReadyReturn stmt) (freshId : ℕ) :
    ∃ out, mapReturns concreteDimensions freshId stmts = .ok out ∧
      (NormalAll out ↔ ∀ stmt ∈ stmts, SettledReturn stmt) := by
  induction stmts generalizing freshId with
  | nil => exact ⟨[], rfl, (fun _ _ ht => by cases ht), fun _ => trivial⟩
  | cons stmt stmts ih =>
    obtain ⟨hstmt, hstmts⟩ := List.forall_mem_cons.mp h
    have hother : ∀ stmt', mapReturns concreteDimensions freshId (stmt' :: stmts) =
        (mapReturns concreteDimensions freshId stmts >>= fun stmts => .ok (stmt' :: stmts)) →
        (Normal stmt' ↔ SettledReturn stmt') → ∃ out, mapReturns concreteDimensions freshId (stmt' :: stmts) = .ok out ∧
          (NormalAll out ↔ ∀ stmt ∈ stmt' :: stmts, SettledReturn stmt) := by
      intro stmt' hmap hnormal
      obtain ⟨out, hout, hiff⟩ := ih hstmts freshId
      refine ⟨stmt' :: out, by rw [hmap, hout]; rfl, ?_⟩
      show Normal stmt' ∧ NormalAll out ↔ _
      rw [List.forall_mem_cons, hiff, hnormal]
    cases stmt with
    | returnStmt info value =>
      by_cases hsugar : isSugar value
      · obtain ⟨out, hout, hiff⟩ := ih hstmts (freshId + 1)
        have haccess : PlainAccess [] := trivial
        obtain ⟨subs, hsubs, hsettled, hsame⟩ :=
          intoSingleSubstitution_normal info (toString freshId) .assignVar haccess hstmt
        refine ⟨.declaration info .var (toString freshId)
            ((concreteDimensions value.getMeta).map fun (length : ℕ) => .number info length) false false ::
              subs ++ .returnStmt info (.var info (toString freshId) []) :: out, ?_, ?_⟩
        · unfold mapReturns splitReturn
          rw [if_pos hsugar]
          dsimp only
          rw [hsubs, hout]
          rfl
        · rw [List.forall_mem_cons, ← hiff, normalAll_iff, normalAll_iff, List.forall_mem_append, List.forall_mem_cons,
            List.forall_mem_cons]
          have hnormal : (∀ t ∈ subs, Normal t) ↔ PlainCondition value :=
            (forall₂_congr fun t ht => (hsame t ht).symm).trans hsettled
          rw [hnormal]
          show (PlainAll _ ∧ _) ∧ (PlainAccess [] ∧ _) ↔ _
          exact ⟨fun h => ⟨h.1.2, h.2.2⟩, fun h => ⟨⟨lengths_plain info _, h.1⟩, trivial, h.2⟩⟩
      · refine hother _ ?_ ?_
        · rw [mapReturns]
          rw [if_neg hsugar]
        · have hnot : NotSugar value := Bool.eq_false_iff.mpr hsugar
          exact ⟨fun _ => plainCondition_of_notSugar hnot, fun _ => (plain_iff_of_filtered hstmt).mpr hnot⟩
    | _ => exact hother _ rfl Iff.rfl

theorem mapBlock_ok (concreteDimensions : Meta → VCT) (h : AllReady stmts) (freshId : ℕ) :
    ∃ out, mapBlock concreteDimensions freshId stmts = .ok out ∧ (NormalAll out ↔ AllSettled stmts) := by
  obtain ⟨stmts₁, h₁, hready₁, hsettled₁⟩ := replaceAll_ok intoSingleSubstitution_ok h
  obtain ⟨stmts₂, h₂, hready₂, hsettled₂⟩ := replaceAll_ok intoSingleConstraintEquality_ok hready₁
  obtain ⟨out, h₃, hnormal⟩ := mapReturns_ok concreteDimensions stmts₂ hready₂ freshId
  refine ⟨out, ?_, hnormal.trans (hsettled₂.trans hsettled₁)⟩
  unfold mapBlock mapSubstitutions mapConstraintEqualities
  rw [h₁]
  show (replaceAll intoSingleConstraintEquality stmts₁ >>= _) = _
  rw [h₂]
  exact h₃

/-! ## Statements -/

theorem extendAndFilter_always (h : Produced concreteDimensions e) :
    Always (extendAndFilter concreteDimensions context e) (Extracted e) :=
  (extendExpression_always e _ h).bind fun _ hr => hr.filterOne.bind fun _ hr' => .pure hr'

theorem extendLogArguments_always : ∀ args : List LogArgument, ProducedLog concreteDimensions args →
    Always (extendLogArguments concreteDimensions context args) fun r =>
      AllReady r.2 ∧ (PlainLog r.1 ∧ AllSettled r.2 ↔ ExtractableLog args)
  | [], _ => .pure ⟨allReady_nil, fun _ => trivial, fun _ => ⟨trivial, allSettled_nil⟩⟩
  | .logStr string :: args, h => (extendLogArguments_always args h).bind fun _ hr => .pure hr
  | .logExp arg :: args, h => by
    refine (extendExpression_always arg _ h.1).bind fun r hr =>
      (extendLogArguments_always args h.2).bind fun r' hr' => .pure ⟨hr.ready.append hr'.1, ?_⟩
    show (Plain r.1 ∧ PlainLog r'.1) ∧ AllSettled (r.2 ++ r'.2) ↔ (NotSugar arg ∧ PlainInside arg) ∧ ExtractableLog args
    rw [plain_iff_of_filtered hr.extension.filtered, hr.extension.notSugar_iff, allSettled_append, hr.settled, ← hr'.2]
    tauto

/-- The statement after its extension, with the statements before it. -/
structure Cleaned (stmt : Statement) (r : Statement × List Statement) : Prop where
  ready : Ready r.1
  readyBefore : AllReady r.2
  inBlock : Settled r.1 ∧ AllSettled r.2 ↔ Extractable true stmt
  outside : Normal r.1 ∧ AllSettled r.2 ↔ Extractable false stmt

theorem normalRhs_iff_of_filtered (h : Filtered e) : NormalRhs e ↔ isSwitch e = false ∧ isArray e = false := by
  cases e with
  | infixOp info lhe op rhe => exact ⟨fun _ => ⟨rfl, rfl⟩, fun _ => h⟩
  | prefixOp info op rhe => exact ⟨fun _ => ⟨rfl, rfl⟩, fun _ => h⟩
  | inlineSwitchOp info cond ifTrue ifFalse => exact ⟨False.elim, fun hs => by cases hs.1⟩
  | var info name access => exact ⟨fun _ => ⟨rfl, rfl⟩, fun _ => h⟩
  | number info value => exact ⟨fun _ => ⟨rfl, rfl⟩, fun _ => h⟩
  | call info id args => exact ⟨fun _ => ⟨rfl, rfl⟩, fun _ => h⟩
  | arrayInLine info values => exact ⟨False.elim, fun hs => by cases hs.2⟩
  | uniformArray info value dimension => exact ⟨False.elim, fun hs => by cases hs.2⟩
  | parallelOp info rhe => exact h.elim
  | busCall info id args => exact h.elim
  | anonymousComp info id isParallel params signals names => exact h.elim
  | tuple info values => exact h.elim

theorem sidesFit_of_extension {lhe' rhe' : Expression} (hl : Extension (concreteDimensions lhe.getMeta) lhe lhe')
    (hr : Extension (concreteDimensions rhe.getMeta) rhe rhe') (h : ProducedSides concreteDimensions lhe rhe) :
    SidesFit lhe' rhe' := by
  cases hl with
  | uniformArray => exact h.elim
  | arrayInLine hsize =>
    cases hr with
    | uniformArray => exact h.elim
    | arrayInLine hsize' =>
      have hsame := hsize.symm.trans ((show _ = _ from h).trans hsize')
      exact (List.cons.inj hsame).1
    | _ => trivial
  | _ =>
    cases hr with
    | uniformArray => exact h.elim
    | _ => trivial

/-- A statement with the statements before it, and the rest of its block. -/
theorem cons_always {stmt : Statement} {x : Cleans (Statement × List Statement)} {y : Cleans (List Statement)}
    {p : Prop} (hx : Always x (Cleaned stmt)) (hy : Always y fun out => AllReady out ∧ (AllSettled out ↔ p)) :
    Always (do
      let (stmt, inits) ← x
      let stmts ← y
      Pure.pure (inits ++ [stmt] ++ stmts)) fun out => AllReady out ∧ (AllSettled out ↔ Extractable true stmt ∧ p) := by
  refine hx.bind fun r hr => hy.bind fun out hout => .pure ⟨?_, ?_⟩
  · exact (hr.readyBefore.append (List.forall_mem_singleton.mpr hr.ready)).append hout.1
  · have hsingle : AllSettled [r.1] ↔ Settled r.1 := List.forall_mem_singleton
    rw [allSettled_append, allSettled_append, hsingle, hout.2, ← hr.inBlock, and_comm (a := Settled r.1)]

/-- A block leaves no statements to be put before it. -/
theorem block_always {info : Meta}
    (hstmts : Always (extendStmts concreteDimensions context stmts) fun out =>
      AllReady out ∧ (AllSettled out ↔ ExtractableBlock stmts)) :
    Always (extendStatement concreteDimensions context (.block info stmts)) fun r =>
      Cleaned (.block info stmts) r ∧ r.2 = [] :=
  .get_bind fun before => hstmts.bind fun extended hextended => .get_bind fun after => by
    obtain ⟨hready, hsettled⟩ := hextended
    obtain ⟨out, hout, hnormal⟩ := mapBlock_ok concreteDimensions hready after.freshId
    have hiff : NormalAll out ∧ AllSettled [] ↔ ExtractableBlock stmts :=
      ⟨fun hall => hsettled.mp (hnormal.mp hall.1), fun hall => ⟨hnormal.mpr (hsettled.mpr hall), allSettled_nil⟩⟩
    refine (Always.lift hout (Q := (· = out)) rfl).bind fun mapped hmapped => .modify_bind (.pure ?_)
    subst hmapped
    exact ⟨⟨trivial, allReady_nil, hiff, hiff⟩, rfl⟩

mutual

theorem extendStatement_always : ∀ stmt : Statement, ProducedStatement concreteDimensions stmt →
    Always (extendStatement concreteDimensions context stmt) (Cleaned stmt)
  | .block info stmts, h => (block_always (extendStmts_always stmts h)).imp fun _ hr => hr.1
  | .whileStmt info cond stmt, h => by
    refine (extendStatement_always stmt h.2).bind fun r hr => (extendAndFilter_always h.1).bind fun r' hr' => .pure ?_
    have hiff : (Plain r'.1 ∧ Normal r.1) ∧ AllSettled (r.2 ++ r'.2) ↔ PlainConditions cond ∧ Extractable false stmt := by
      rw [allSettled_append, hr'.settled, ← hr.outside]
      have hplain := hr'.plain
      tauto
    exact ⟨trivial, hr.readyBefore.append hr'.ready, hiff, hiff⟩
  | .ifThenElse info cond ifCase none, h => by
    refine (extendStatement_always ifCase h.2).bind fun r hr => (extendAndFilter_always h.1).bind fun r' hr' => .pure ?_
    have hiff : (Plain r'.1 ∧ Normal r.1) ∧ AllSettled (r.2 ++ r'.2) ↔
        PlainConditions cond ∧ Extractable false ifCase := by
      rw [allSettled_append, hr'.settled, ← hr.outside]
      have hplain := hr'.plain
      tauto
    exact ⟨trivial, hr.readyBefore.append hr'.ready, hiff, hiff⟩
  | .ifThenElse info cond ifCase (some elseCase), h => by
    refine (extendStatement_always ifCase h.2.1).bind fun r₁ hr₁ => (extendStatement_always elseCase h.2.2).bind
      fun r₂ hr₂ => (extendAndFilter_always h.1).bind fun r' hr' => .pure ?_
    have hiff : (Plain r'.1 ∧ Normal r₁.1 ∧ Normal r₂.1) ∧ AllSettled (r₁.2 ++ r₂.2 ++ r'.2) ↔
        PlainConditions cond ∧ Extractable false ifCase ∧ Extractable false elseCase := by
      rw [allSettled_append, allSettled_append, hr'.settled, ← hr₁.outside, ← hr₂.outside]
      have hplain := hr'.plain
      tauto
    exact ⟨trivial, (hr₁.readyBefore.append hr₂.readyBefore).append hr'.ready, hiff, hiff⟩
  | .substitution info var access op rhe, h => by
    refine (extendExpression_always rhe _ h.2).bind fun r hr => (extendIndexes_always access h.1).bind fun r' hr' => .pure ?_
    obtain ⟨hplain, hready, hsettled⟩ := hr'
    refine ⟨⟨hplain, hr.extension.filtered⟩, hr.ready.append hready, ?_, ?_⟩
    · show PlainCondition r.1 ∧ AllSettled (r.2 ++ r'.2) ↔ PlainInsideAccess access ∧ PlainCondition rhe ∧ PlainInside rhe
      rw [allSettled_append, hr.extension.condition_iff, hr.settled, hsettled]
      tauto
    · show (PlainAccess r'.1 ∧ NormalRhs r.1) ∧ AllSettled (r.2 ++ r'.2) ↔
        PlainInsideAccess access ∧ (isSwitch rhe = false ∧ isArray rhe = false) ∧ PlainInside rhe
      rw [allSettled_append, normalRhs_iff_of_filtered hr.extension.filtered, hr.extension.isSwitch_eq,
        hr.extension.isArray_eq, hr.settled, hsettled]
      tauto
  | .constraintEquality info lhe rhe, h => by
    refine (extendExpression_always lhe _ h.1).bind fun r₁ hr₁ => (extendExpression_always rhe _ h.2.1).bind
      fun r₂ hr₂ => .pure ⟨⟨hr₁.extension.filtered, hr₂.extension.filtered,
        sidesFit_of_extension hr₁.extension hr₂.extension h.2.2⟩, hr₁.ready.append hr₂.ready, ?_, ?_⟩
    · show ((isArray r₁.1 ∨ isArray r₂.1) ∨ NotSugar r₁.1 ∧ NotSugar r₂.1) ∧ AllSettled (r₁.2 ++ r₂.2) ↔
        (true ∧ (isArray lhe ∨ isArray rhe) ∨ NotSugar lhe ∧ NotSugar rhe) ∧ PlainInside lhe ∧ PlainInside rhe
      rw [allSettled_append, hr₁.extension.isArray_eq, hr₂.extension.isArray_eq, hr₁.extension.notSugar_iff,
        hr₂.extension.notSugar_iff, hr₁.settled, hr₂.settled]
      tauto
    · show (Plain r₁.1 ∧ Plain r₂.1) ∧ AllSettled (r₁.2 ++ r₂.2) ↔
        (false ∧ (isArray lhe ∨ isArray rhe) ∨ NotSugar lhe ∧ NotSugar rhe) ∧ PlainInside lhe ∧ PlainInside rhe
      rw [allSettled_append, plain_iff_of_filtered hr₁.extension.filtered,
        plain_iff_of_filtered hr₂.extension.filtered, hr₁.extension.notSugar_iff, hr₂.extension.notSugar_iff, hr₁.settled,
        hr₂.settled]
      have hfalse : ¬ (false = true) := Bool.false_ne_true
      tauto
  | .declaration info xtype name dimensions isConstant isAnonymous, _ =>
    .pure ⟨trivial, allReady_nil, ⟨And.left, fun hplain => ⟨hplain, allSettled_nil⟩⟩,
      And.left, fun hplain => ⟨hplain, allSettled_nil⟩⟩
  | .returnStmt info value, h => by
    refine (extendExpression_always value _ h).bind fun r hr => .pure ⟨hr.extension.filtered, hr.ready, ?_, ?_⟩
    · show PlainCondition r.1 ∧ AllSettled r.2 ↔ PlainCondition value ∧ PlainInside value
      rw [hr.extension.condition_iff, hr.settled]
    · show Plain r.1 ∧ AllSettled r.2 ↔ NotSugar value ∧ PlainInside value
      rw [plain_iff_of_filtered hr.extension.filtered, hr.extension.notSugar_iff, hr.settled]
  | .logCall info args, h =>
    (extendLogArguments_always args h).bind fun _ hr => .pure ⟨trivial, hr.1, hr.2, hr.2⟩
  | .assert info arg, h => by
    refine (extendExpression_always arg _ h).bind fun r hr => ?_
    have hiff : Plain r.1 ∧ AllSettled r.2 ↔ NotSugar arg ∧ PlainInside arg := by
      rw [plain_iff_of_filtered hr.extension.filtered, hr.extension.notSugar_iff, hr.settled]
    exact .pure ⟨trivial, hr.ready, hiff, hiff⟩
  | .initializationBlock .., h => h.elim
  | .multSubstitution .., h => h.elim
  | .underscoreSubstitution .., h => h.elim

theorem extendStmts_always : ∀ stmts : List Statement, ProducedBlock concreteDimensions stmts →
    Always (extendStmts concreteDimensions context stmts) fun out => AllReady out ∧ (AllSettled out ↔ ExtractableBlock stmts)
  | [], _ => .pure ⟨allReady_nil, fun _ => trivial, fun _ => allSettled_nil⟩
  | .initializationBlock _ _ initializations :: stmts, h => by
    refine (extendInitializations_always initializations h.1).bind fun out hout =>
      (extendStmts_always stmts h.2).bind fun out' hout' => .pure ⟨hout.1.append hout'.1, ?_⟩
    rw [allSettled_append, hout.2, hout'.2]
    rfl
  | .ifThenElse info cond ifCase elseCase :: stmts, h =>
    cons_always (extendStatement_always (.ifThenElse info cond ifCase elseCase) h.1) (extendStmts_always stmts h.2)
  | .whileStmt info cond stmt :: stmts, h =>
    cons_always (extendStatement_always (.whileStmt info cond stmt) h.1) (extendStmts_always stmts h.2)
  | .returnStmt info value :: stmts, h =>
    cons_always (extendStatement_always (.returnStmt info value) h.1) (extendStmts_always stmts h.2)
  | .declaration info xtype name dimensions isConstant isAnonymous :: stmts, h =>
    cons_always (extendStatement_always (.declaration info xtype name dimensions isConstant isAnonymous) h.1) (extendStmts_always stmts h.2)
  | .substitution info var access op rhe :: stmts, h =>
    cons_always (extendStatement_always (.substitution info var access op rhe) h.1) (extendStmts_always stmts h.2)
  | .multSubstitution info lhe op rhe :: stmts, h =>
    cons_always (extendStatement_always (.multSubstitution info lhe op rhe) h.1) (extendStmts_always stmts h.2)
  | .underscoreSubstitution info op rhe :: stmts, h =>
    cons_always (extendStatement_always (.underscoreSubstitution info op rhe) h.1) (extendStmts_always stmts h.2)
  | .constraintEquality info lhe rhe :: stmts, h =>
    cons_always (extendStatement_always (.constraintEquality info lhe rhe) h.1) (extendStmts_always stmts h.2)
  | .logCall info args :: stmts, h =>
    cons_always (extendStatement_always (.logCall info args) h.1) (extendStmts_always stmts h.2)
  | .block info stmts' :: stmts, h =>
    cons_always (extendStatement_always (.block info stmts') h.1) (extendStmts_always stmts h.2)
  | .assert info arg :: stmts, h =>
    cons_always (extendStatement_always (.assert info arg) h.1) (extendStmts_always stmts h.2)

theorem extendInitializations_always : ∀ stmts : List Statement, ProducedInitializations concreteDimensions stmts →
    Always (extendInitializations concreteDimensions context stmts) fun out =>
      AllReady out ∧ (AllSettled out ↔ ExtractableInitializations stmts)
  | [], _ => .pure ⟨allReady_nil, fun _ => trivial, fun _ => allSettled_nil⟩
  | stmt :: stmts, h => cons_always (extendStatement_always stmt h.1) (extendInitializations_always stmts h.2)

end

/-! ## Normal statements can be translated -/

mutual

theorem Plain.translates : ∀ {e : Expression}, Plain e → ExpressionTranslates e
  | .infixOp .., h => ⟨Plain.translates h.1, Plain.translates h.2⟩
  | .prefixOp _ _ rhe, h => Plain.translates (e := rhe) h
  | .var _ _ access, h => PlainAccess.translates access h
  | .number .., _ => trivial
  | .inlineSwitchOp .., h => h.elim
  | .parallelOp .., h => h.elim
  | .call .., h => h.elim
  | .busCall .., h => h.elim
  | .anonymousComp .., h => h.elim
  | .arrayInLine .., h => h.elim
  | .tuple .., h => h.elim
  | .uniformArray .., h => h.elim

theorem PlainAccess.translates : ∀ access : List Access, PlainAccess access → AccessTranslates access
  | [], _ => trivial
  | .componentAccess _ :: access, h => PlainAccess.translates access h
  | .arrayAccess _ :: access, h => ⟨Plain.translates h.1, PlainAccess.translates access h.2⟩

end

theorem PlainAll.translates : ∀ {exprs : List Expression}, PlainAll exprs → ExpressionsTranslate exprs
  | [], _ => trivial
  | _ :: _, h => ⟨h.1.translates, PlainAll.translates h.2⟩

theorem PlainLog.translates : ∀ args : List LogArgument, PlainLog args → LogTranslates args
  | [], _ => trivial
  | .logStr _ :: args, h => PlainLog.translates args h
  | .logExp _ :: args, h => ⟨h.1.translates, PlainLog.translates args h.2⟩

theorem Plain.sizeTranslates (h : Plain e) : SizeTranslates e := by
  cases e with
  | var info name access => exact PlainAccess.translates access h
  | infixOp info lhe op rhe => trivial
  | prefixOp info op rhe => trivial
  | number info value => trivial
  | _ => exact h.elim

theorem NormalRhs.translates (h : NormalRhs e) : RhsTranslates e := by
  cases e with
  | call info id args => exact PlainAll.translates h
  | _ => exact ⟨Plain.sizeTranslates h, Plain.translates h⟩

mutual

theorem Normal.translates : ∀ {stmt : Statement}, Normal stmt → Translates stmt
  | .ifThenElse _ _ _ none, h => ⟨h.1.translates, h.2.translates⟩
  | .ifThenElse _ _ _ (some _), h => ⟨h.1.translates, h.2.1.translates, h.2.2.translates⟩
  | .whileStmt .., h => ⟨h.1.translates, h.2.translates⟩
  | .returnStmt _ value, h => ⟨Plain.sizeTranslates (e := value) h, Plain.translates h⟩
  | .declaration .., _ => trivial
  | .substitution .., h => ⟨h.1.translates, h.2.translates⟩
  | .constraintEquality .., h => ⟨h.1.translates, h.2.translates⟩
  | .logCall _ args, h => PlainLog.translates args h
  | .block _ stmts, h => NormalAll.translates stmts h
  | .assert _ arg, h => Plain.translates (e := arg) h
  | .initializationBlock .., h => h.elim
  | .multSubstitution .., h => h.elim
  | .underscoreSubstitution .., h => h.elim

theorem NormalAll.translates : ∀ stmts : List Statement, NormalAll stmts → AllTranslate stmts
  | [], _ => trivial
  | _ :: stmts, h => ⟨h.1.translates, NormalAll.translates stmts h.2⟩

end

/-! ## The pass -/

theorem cleanBody_always {body : Statement} (h : ProducedBody concreteDimensions body) :
    Always (cleanBody concreteDimensions context body) fun body' => Normal body' ↔ Extractable true body := by
  cases body with
  | block info stmts =>
    refine (block_always (extendStmts_always stmts h)).bind fun r hr => ?_
    obtain ⟨cleaned, trash⟩ := r
    obtain ⟨hcleaned, rfl⟩ := hr
    exact .pure ⟨fun hnormal => hcleaned.outside.mp ⟨hnormal, allSettled_nil⟩,
      fun hextractable => (hcleaned.outside.mpr hextractable).1⟩
  | _ => exact h.elim

theorem cleanTemplates_always : ∀ {templates : List TemplateInstance},
    (∀ template ∈ templates, ProducedBody concreteDimensions template.code) →
    Always (cleanTemplates concreteDimensions templates) fun out =>
      (∀ template ∈ out, Normal template.code) ↔ ∀ template ∈ templates, Extractable true template.code
  | [], _ => .pure ⟨(fun _ _ ht => by cases ht), fun _ _ ht => by cases ht⟩
  | template :: templates, h => by
    obtain ⟨htemplate, htemplates⟩ := List.forall_mem_cons.mp h
    refine (cleanBody_always htemplate).bind fun code hcode => (cleanTemplates_always htemplates).bind fun out hout => .pure ?_
    rw [List.forall_mem_cons, List.forall_mem_cons, hout]
    exact and_congr_left fun _ => hcode

theorem cleanFunctions_always : ∀ {functions : List Statement},
    (∀ body ∈ functions, ProducedBody concreteDimensions body) →
    Always (cleanFunctions concreteDimensions functions) fun out =>
      (∀ body ∈ out, Normal body) ↔ ∀ body ∈ functions, Extractable true body
  | [], _ => .pure ⟨(fun _ _ ht => by cases ht), fun _ _ ht => by cases ht⟩
  | body :: functions, h => by
    obtain ⟨hbody, hfunctions⟩ := List.forall_mem_cons.mp h
    refine (cleanBody_always hbody).bind fun body' hbody' => (cleanFunctions_always hfunctions).bind fun out hout => .pure ?_
    rw [List.forall_mem_cons, List.forall_mem_cons, hout]
    exact and_congr_left fun _ => hbody'

theorem VCP.forall_bodies_iff {vcp : VCP} {P : Statement → Prop} :
    (∀ body ∈ vcp.bodies, P body) ↔ (∀ template ∈ vcp.templates, P template.code) ∧ ∀ body ∈ vcp.functions, P body := by
  unfold VCP.bodies
  rw [List.forall_mem_append, List.forall_mem_map]

/-- On the programs that the earlier passes produce the sugar is removed without a panic, and the result is in the
normal form that the translation needs if and only if all sugar is where it is extracted. -/
theorem cleanSugar_normal_iff (concreteDimensions : Meta → VCT) (vcp : VCP)
    (h : ∀ body ∈ vcp.bodies, ProducedBody concreteDimensions body) :
    ∃ vcp', cleanSugar concreteDimensions vcp = .ok vcp' ∧
      ((∀ body ∈ vcp'.bodies, Normal body ∧ Translates body) ↔ ∀ body ∈ vcp.bodies, Extractable true body) := by
  obtain ⟨htemplates, hfunctions⟩ := VCP.forall_bodies_iff.mp h
  have hall := (cleanTemplates_always htemplates).bind fun templates ht =>
    (cleanFunctions_always hfunctions).bind fun functions hf =>
      Always.pure (a := (⟨templates, functions⟩ : VCP)) (Q := fun vcp' =>
        (∀ body ∈ vcp'.bodies, Normal body) ↔ ∀ body ∈ vcp.bodies, Extractable true body) (by
          rw [VCP.forall_bodies_iff, VCP.forall_bodies_iff, ht, hf])
  obtain ⟨vcp', state, hrun, hnormal⟩ := (hall ⟨0, false⟩).exists_ok
  refine ⟨vcp', ?_, ⟨fun hbodies => hnormal.mp fun body hbody => (hbodies body hbody).1, fun hextractable body hbody => ?_⟩⟩
  · unfold cleanSugar
    exact congrArg (· >>= fun r => .ok r.1) hrun
  · exact ⟨hnormal.mpr hextractable body hbody, (hnormal.mpr hextractable body hbody).translates⟩

def here : Meta := ⟨0, 0, none⟩

/-- `c ? 2 : 3`. -/
def numberSwitch : Expression :=
  .inlineSwitchOp here (.var here "c" []) (.number here 2) (.number here 3)

/-- A function whose body is a block with the one statement. -/
def singleStatement (stmt : Statement) : VCP := ⟨[], [.block here [stmt]]⟩

/-- `x = c ? 2 : 3;` is made a conditional. -/
theorem cleanSugar_normal_iff_switch :
    ∃ vcp', cleanSugar (fun _ => []) (singleStatement (.substitution here "x" [] .assignVar numberSwitch)) = .ok vcp' ∧
      ((∀ body ∈ vcp'.bodies, Normal body ∧ Translates body) ↔
        ∀ body ∈ (singleStatement (.substitution here "x" [] .assignVar numberSwitch)).bodies, Extractable true body) :=
  cleanSugar_normal_iff (fun _ => []) (singleStatement (.substitution here "x" [] .assignVar numberSwitch))
    (List.forall_mem_singleton.mpr ⟨⟨trivial, trivial, trivial⟩, trivial⟩)

/-- `log(c ? 2 : 3);` -/
def loggedSwitch : VCP := singleStatement (.logCall here [.logExp numberSwitch])

/-- `if (c) return c ? 2 : 3;` -/
def returnedSwitch : VCP :=
  singleStatement (.ifThenElse here (.var here "c" []) (.returnStmt here numberSwitch) none)

/-- Both switches are left as they are, and the translation of them panics. -/
theorem not_cleanSugar_normal :
    ((∀ body ∈ loggedSwitch.bodies, ProducedBody (fun _ => []) body) ∧
      cleanSugar (fun _ => []) loggedSwitch = .ok loggedSwitch ∧
        ∀ body ∈ loggedSwitch.bodies, ¬ Normal body ∧ ¬ Translates body) ∧
    (∀ body ∈ returnedSwitch.bodies, ProducedBody (fun _ => []) body) ∧
      cleanSugar (fun _ => []) returnedSwitch = .ok returnedSwitch ∧
        ∀ body ∈ returnedSwitch.bodies, ¬ Normal body ∧ ¬ Translates body := by
  refine ⟨⟨?_, rfl, ?_⟩, ?_, rfl, ?_⟩
  · exact List.forall_mem_singleton.mpr ⟨⟨⟨trivial, trivial⟩, trivial⟩, trivial⟩
  · exact List.forall_mem_singleton.mpr ⟨fun h => h.1.1, fun h => h.1.1⟩
  · exact List.forall_mem_singleton.mpr ⟨⟨trivial, trivial, trivial⟩, trivial⟩
  · exact List.forall_mem_singleton.mpr ⟨fun h => h.1.2, fun h => h.1.2.1⟩

end Circom.Hir.SugarCleaner
