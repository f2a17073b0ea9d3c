import Circom.IntermediateRepresentation.Layout

/-!
# Variables do not overlap

Addresses are taken from the top of a stack, which goes back at the end of a block only. All symbols of the
environment lie below the top, so that a new variable does not overlap with them.
-/

namespace Circom.IntermediateRepresentation.Layout

open Circom.Ast
open Circom.Lib (Slot SlotCode SlotEvent SlotRuns WellScoped Owners AllPoints Consecutive reservations
  reservations_append reservations_accesses allPoints_append allPoints_accesses)
open Circom.ProgramStructure (Variables)

variable {space : AddressSpace} {live : List Slot} {code : List SlotCode} {infos : List SymbolInfo}
variable {state' : State} {name : String} {info : SymbolInfo}

/-! ## The environment -/

theorem tail_addVariable {VC : Type} (blocks : Variables VC) (name : String) (content : VC) :
    (blocks.addVariable name content).tail = blocks.tail := by
  cases blocks <;> rfl

theorem mem_of_getVariable {VC : Type} {blocks : Variables VC} {content : VC}
    (h : blocks.getVariable name = some content) : content ∈ blocks.flatMap fun block => block.pairs.map Prod.snd := by
  obtain ⟨block, hblock, hlookup⟩ := List.exists_of_findSome?_eq_some h
  exact List.mem_flatMap.mpr ⟨block, hblock,
    List.mem_map.mpr ⟨(name, content), AList.mem_pairs_iff_lookup.mpr hlookup, rfl⟩⟩

/-- A symbol that is added may hide another one of its block. -/
theorem flatMap_addVariable_sublist {VC : Type} (blocks : Variables VC) (name : String) (content : VC) :
    List.Sublist ((blocks.addVariable name content).flatMap fun block => block.pairs.map Prod.snd)
      (content :: blocks.flatMap fun block => block.pairs.map Prod.snd) := by
  cases blocks with
  | nil => exact List.nil_sublist _
  | cons block blocks =>
    have hpairs : (block.insert name content).pairs.map Prod.snd =
        content :: ((block.entries.kerase name).map fun e => (e.1, e.2)).map Prod.snd := by
      rw [AList.pairs, AList.entries_insert]
      rfl
    show List.Sublist ((block.insert name content).pairs.map Prod.snd ++ _) (content :: (block.pairs.map Prod.snd ++ _))
    rw [hpairs, List.cons_append]
    refine .cons_cons _ (List.Sublist.append ?_ (List.Sublist.refl _))
    exact ((List.kerase_sublist name block.entries).map _).map _

variable {state : State}

theorem live_congr (h : state'.environment = state.environment) : state'.live = state.live := by
  unfold State.live
  rw [h]

theorem live_reserveVariable (state : State) (name : String) (dimensions : List ℕ) :
    List.Sublist (state.reserveVariable name dimensions).2.live
      ((state.reserveVariable name dimensions).1 :: state.live) := by
  exact (flatMap_addVariable_sublist state.environment name _).filterMap _

theorem mem_live (h : state.environment.getVariable name = some info)
    (hspace : info.space = .variables) : info.slot ∈ state.live := by
  refine List.mem_filterMap.mpr ⟨info, mem_of_getVariable h, ?_⟩
  rw [if_pos hspace]

/-! ## Accesses -/

/-- The code consists of accesses of live variables. -/
def OnlyAccesses (live : List Slot) (code : List SlotCode) : Prop :=
  ∀ c ∈ code, ∃ slot ∈ live, c = SlotCode.access slot

theorem OnlyAccesses.nil : OnlyAccesses live [] := fun _ hc => absurd hc List.not_mem_nil

theorem OnlyAccesses.append {code' : List SlotCode} (h : OnlyAccesses live code)
    (h' : OnlyAccesses live code') : OnlyAccesses live (code ++ code') := by
  intro c hc
  rcases List.mem_append.mp hc with hc | hc
  · exact h c hc
  · exact h' c hc

/-- Both parts of a translation consist of accesses. -/
theorem OnlyAccesses.of_bind {x y : Option (List SlotCode)}
    (h : (x >>= fun a => y >>= fun b => some (a ++ b)) = some code) (hx : ∀ a, x = some a → OnlyAccesses live a)
    (hy : ∀ b, y = some b → OnlyAccesses live b) : OnlyAccesses live code := by
  obtain ⟨a, ha, h⟩ := Option.bind_eq_some_iff.mp h
  obtain ⟨b, hb, h⟩ := Option.bind_eq_some_iff.mp h
  cases h
  exact (hx a ha).append (hy b hb)

theorem accessCode_onlyAccesses (h : accessCode state name = some code) : OnlyAccesses state.live code := by
  obtain ⟨info, hinfo, h⟩ := Option.bind_eq_some_iff.mp h
  cases h
  by_cases hspace : info.space = .variables
  · rw [if_pos hspace]
    intro c hc
    exact ⟨info.slot, mem_live hinfo hspace, List.mem_singleton.mp hc⟩
  · rw [if_neg hspace]
    exact .nil

mutual

theorem translateExpression_onlyAccesses : ∀ (e : Expression) {code : List SlotCode},
    translateExpression state e = some code → OnlyAccesses state.live code
  | .infixOp _ lhe _ rhe, code, h =>
    .of_bind h (fun _ => translateExpression_onlyAccesses lhe) fun _ => translateExpression_onlyAccesses rhe
  | .prefixOp _ _ rhe, code, h => translateExpression_onlyAccesses rhe h
  | .var _ name access, code, h =>
    .of_bind h (fun _ => accessCode_onlyAccesses) fun _ => translateAccesses_onlyAccesses access
  | .number _ _, code, h => by
    cases h
    exact .nil
  | .call _ _ args, code, h => translateCallArguments_onlyAccesses args h
  | .inlineSwitchOp .., _, h => by cases h
  | .parallelOp .., _, h => by cases h
  | .busCall .., _, h => by cases h
  | .anonymousComp .., _, h => by cases h
  | .arrayInLine .., _, h => by cases h
  | .tuple .., _, h => by cases h
  | .uniformArray .., _, h => by cases h

theorem translateAccesses_onlyAccesses : ∀ (access : List Access) {code : List SlotCode},
    translateAccesses state access = some code → OnlyAccesses state.live code
  | [], code, h => by
    cases h
    exact .nil
  | .componentAccess _ :: access, code, h => translateAccesses_onlyAccesses access h
  | .arrayAccess index :: access, code, h =>
    .of_bind h (fun _ => translateExpression_onlyAccesses index) fun _ => translateAccesses_onlyAccesses access

theorem translateCallArguments_onlyAccesses : ∀ (args : List Expression) {code : List SlotCode},
    translateCallArguments state args = some code → OnlyAccesses state.live code
  | [], code, h => by
    cases h
    exact .nil
  | arg :: args, code, h =>
    .of_bind h (fun _ => translateExpression_onlyAccesses arg) fun _ => translateCallArguments_onlyAccesses args

end

theorem translateLog_onlyAccesses : ∀ (args : List LogArgument) {code : List SlotCode},
    translateLog state args = some code → OnlyAccesses state.live code
  | [], code, h => by
    cases h
    exact .nil
  | .logStr _ :: args, code, h => translateLog_onlyAccesses args h
  | .logExp arg :: args, code, h =>
    .of_bind h (fun _ => translateExpression_onlyAccesses arg) fun _ => translateLog_onlyAccesses args

/-! ## Growing states -/

/-- The slots do not overlap and end at or below the depth. -/
def Separate (depth : ℕ) (live : List Slot) : Prop :=
  live.Pairwise Slot.Disjoint ∧ ∀ slot ∈ live, slot.stop ≤ depth

theorem Separate.mono {depth depth' : ℕ} (h : Separate depth live) (hle : depth ≤ depth') :
    Separate depth' live := ⟨h.1, fun slot hslot => Nat.le_trans (h.2 slot hslot) hle⟩

/-- The live variables are separate and below the top of the stack. -/
def Fits (state : State) : Prop :=
  Separate state.variableStack state.live ∧ state.variableStack ≤ state.maxStackDepth

/-- The symbols are numbered from a number on. -/
def Numbered (n : ℕ) : List SymbolInfo → Prop
  | [] => True
  | info :: infos => info.slot.site = n ∧ Numbered (n + 1) infos

theorem Numbered.append {n : ℕ} {infos' : List SymbolInfo} (h : Numbered n infos)
    (h' : Numbered (n + infos.length) infos') : Numbered n (infos ++ infos') := by
  induction infos generalizing n with
  | nil => exact h'
  | cons info infos ih =>
    refine ⟨h.1, ih h.2 ?_⟩
    rw [Nat.add_right_comm]
    exact h'

/-- What the translation of statements does: it reserves addresses for the variables that are declared, in the
innermost block and on the stack of variables, and the live variables stay separate. -/
structure Grows (state state' : State) (code : List SlotCode) : Prop where
  tail : state'.environment.tail = state.environment.tail
  depth : state.maxStackDepth ≤ state'.maxStackDepth
  signalStack : state'.signalStack = state.signalStack
  componentAddressStack : state'.componentAddressStack = state.componentAddressStack
  reserved : ∃ infos, state'.reserved = state.reserved ++ infos ∧ Numbered state.reserved.length infos ∧
    (∀ info ∈ infos, info.space = .variables) ∧ infos.map SymbolInfo.slot = reservations code
  fits : Fits state → Fits state' ∧ AllPoints (Separate state'.maxStackDepth) code

namespace Grows

variable {state' state'' : State} {code code' : List SlotCode}

theorem of_accesses (hcode : OnlyAccesses state.live code) : Grows state state code where
  tail := rfl
  depth := Nat.le_refl _
  signalStack := rfl
  componentAddressStack := rfl
  reserved := ⟨[], (List.append_nil _).symm, trivial, fun _ h => absurd h List.not_mem_nil,
    (reservations_accesses hcode).symm⟩
  fits h := ⟨h, allPoints_accesses hcode⟩

theorem trans (h : Grows state state' code) (h' : Grows state' state'' code') :
    Grows state state'' (code ++ code') where
  tail := h'.tail.trans h.tail
  depth := Nat.le_trans h.depth h'.depth
  signalStack := h'.signalStack.trans h.signalStack
  componentAddressStack := h'.componentAddressStack.trans h.componentAddressStack
  reserved := by
    obtain ⟨infos, hreserved, hnumbered, hspace, hslots⟩ := h.reserved
    obtain ⟨infos', hreserved', hnumbered', hspace', hslots'⟩ := h'.reserved
    rw [hreserved, List.length_append] at hnumbered'
    refine ⟨infos ++ infos', ?_, hnumbered.append hnumbered', ?_, ?_⟩
    · rw [hreserved', hreserved, List.append_assoc]
    · exact List.forall_mem_append.mpr ⟨hspace, hspace'⟩
    · rw [List.map_append, hslots, hslots', reservations_append]
  fits hfits := by
    obtain ⟨hfits', hpoints⟩ := h.fits hfits
    obtain ⟨hfits'', hpoints'⟩ := h'.fits hfits'
    exact ⟨hfits'', allPoints_append.mpr
      ⟨hpoints.mono (fun live hlive => hlive.mono h'.depth) _, hpoints'⟩⟩

/-- The code can be replaced by code with the same points and reservations. -/
theorem of_code (h : Grows state state' code) (hreservations : reservations code' = reservations code)
    (hpoints : ∀ P, AllPoints P code → AllPoints P code') : Grows state state' code' where
  tail := h.tail
  depth := h.depth
  signalStack := h.signalStack
  componentAddressStack := h.componentAddressStack
  reserved := by
    rw [hreservations]
    exact h.reserved
  fits hfits := ⟨(h.fits hfits).1, hpoints _ (h.fits hfits).2⟩

theorem point (h : Grows state state' code) : Grows state state' (.point state.live :: code) where
  tail := h.tail
  depth := h.depth
  signalStack := h.signalStack
  componentAddressStack := h.componentAddressStack
  reserved := h.reserved
  fits hfits := by
    obtain ⟨hfits', hpoints⟩ := h.fits hfits
    exact ⟨hfits', hfits.1.mono (Nat.le_trans hfits.2 h.depth), hpoints⟩

/-- A new variable is above all others. -/
theorem reserveVariable (state : State) (name : String) (dimensions : List ℕ) :
    Grows state (state.reserveVariable name dimensions).2
      [.reserve (state.reserveVariable name dimensions).1] where
  tail := tail_addVariable ..
  depth := Nat.le_max_left ..
  signalStack := rfl
  componentAddressStack := rfl
  reserved := by
    refine ⟨_, rfl, ⟨rfl, trivial⟩, fun info hinfo => ?_, rfl⟩
    rw [List.mem_singleton.mp hinfo]
  fits := by
    rintro ⟨⟨hpairwise, hstop⟩, -⟩
    refine ⟨⟨⟨?_, fun slot hslot => ?_⟩, Nat.le_max_right ..⟩, trivial, trivial⟩
    · refine List.Pairwise.sublist (live_reserveVariable state name dimensions) (.cons ?_ hpairwise)
      exact fun slot hslot => Slot.disjoint_of_le (hstop slot hslot)
    · rcases List.mem_cons.mp ((live_reserveVariable state name dimensions).subset hslot) with rfl | hslot
      · exact Nat.le_refl _
      · exact Nat.le_trans (hstop slot hslot) (Nat.le_add_right ..)

/-- The end of a block restores the environment and the top of the stack. -/
theorem block {inner : State}
    (h : Grows { state with environment := state.environment.addVariableBlock } inner code) :
    Grows state { inner with
        environment := inner.environment.removeVariableBlock, variableStack := state.variableStack }
      [.block code] where
  tail := congrArg List.tail h.tail
  depth := h.depth
  signalStack := h.signalStack
  componentAddressStack := h.componentAddressStack
  reserved := by
    obtain ⟨infos, hreserved, hnumbered, hspace, hslots⟩ := h.reserved
    exact ⟨infos, hreserved, hnumbered, hspace, hslots.trans (List.append_nil _).symm⟩
  fits := by
    intro hfits
    obtain ⟨-, hpoints⟩ := h.fits hfits
    refine ⟨⟨?_, Nat.le_trans hfits.2 h.depth⟩, hpoints, trivial⟩
    have henvironment : inner.environment.removeVariableBlock = state.environment := h.tail
    have hlive : State.live { inner with
        environment := inner.environment.removeVariableBlock, variableStack := state.variableStack } =
        state.live := live_congr henvironment
    rw [hlive]
    exact hfits.1

end Grows

variable {concreteDimensions : Meta → List ℕ}

mutual

theorem translateStatement_grows : ∀ (stmt : Statement) {state state' : State} {code : List SlotCode},
    translateStatement concreteDimensions stmt state = some (state', code) → Grows state state' code
  | .declaration info _ name _ _ _, state, _, _, h => by
    cases h
    exact (Grows.reserveVariable state name (concreteDimensions info)).point
  | .substitution _ var access _ rhe, state, _, _, h => by
    obtain ⟨symbol, hsymbol, h⟩ := Option.bind_eq_some_iff.mp h
    obtain ⟨indexes, hindexes, h⟩ := Option.bind_eq_some_iff.mp h
    obtain ⟨src, hsrc, h⟩ := Option.bind_eq_some_iff.mp h
    cases h
    exact (Grows.of_accesses (((accessCode_onlyAccesses hsymbol).append
      (translateAccesses_onlyAccesses access hindexes)).append (translateExpression_onlyAccesses rhe hsrc))).point
  | .block _ stmts, state, _, _, h => by
    obtain ⟨⟨inner, code⟩, hinner, h⟩ := Option.bind_eq_some_iff.mp h
    cases h
    exact (translateStatements_grows stmts hinner).block.point
  | .ifThenElse _ cond ifCase none, state, _, _, h => by
    obtain ⟨condCode, hcond, h⟩ := Option.bind_eq_some_iff.mp h
    obtain ⟨⟨state', ifCode⟩, hif, h⟩ := Option.bind_eq_some_iff.mp h
    cases h
    refine (Grows.trans (.of_accesses (translateExpression_onlyAccesses cond hcond)) ?_).point
    refine (translateStatement_grows ifCase hif).of_code ?_ fun P hP => ⟨⟨hP, trivial⟩, trivial⟩
    show reservations ifCode ++ [] ++ [] = _
    rw [List.append_nil, List.append_nil]
  | .ifThenElse _ cond ifCase (some elseCase), state, _, _, h => by
    obtain ⟨condCode, hcond, h⟩ := Option.bind_eq_some_iff.mp h
    obtain ⟨⟨state', ifCode⟩, hif, h⟩ := Option.bind_eq_some_iff.mp h
    obtain ⟨⟨state'', elseCode⟩, helse, h⟩ := Option.bind_eq_some_iff.mp h
    cases h
    refine (Grows.trans (.of_accesses (translateExpression_onlyAccesses cond hcond)) ?_).point
    have hboth := (translateStatement_grows ifCase hif).trans (translateStatement_grows elseCase helse)
    refine hboth.of_code ?_ fun P hP => ⟨allPoints_append.mp hP, trivial⟩
    rw [reservations_append]
    exact List.append_nil _
  | .whileStmt _ cond stmt, state, _, _, h => by
    obtain ⟨condCode, hcond, h⟩ := Option.bind_eq_some_iff.mp h
    obtain ⟨⟨state', body⟩, hbody, h⟩ := Option.bind_eq_some_iff.mp h
    cases h
    refine Grows.point ?_
    have hboth := (Grows.of_accesses (translateExpression_onlyAccesses cond hcond)).trans
      (translateStatement_grows stmt hbody)
    refine hboth.of_code ?_ fun P hP => ⟨allPoints_append.mp hP, trivial⟩
    rw [reservations_append]
    exact List.append_nil _
  | .assert _ arg, state, _, _, h => by
    obtain ⟨code, hcode, h⟩ := Option.bind_eq_some_iff.mp h
    cases h
    exact (Grows.of_accesses (translateExpression_onlyAccesses arg hcode)).point
  | .constraintEquality _ lhe rhe, state, _, _, h => by
    obtain ⟨lheCode, hlhe, h⟩ := Option.bind_eq_some_iff.mp h
    obtain ⟨rheCode, hrhe, h⟩ := Option.bind_eq_some_iff.mp h
    cases h
    exact (Grows.of_accesses ((translateExpression_onlyAccesses lhe hlhe).append
      (translateExpression_onlyAccesses rhe hrhe))).point
  | .returnStmt _ value, state, _, _, h => by
    obtain ⟨code, hcode, h⟩ := Option.bind_eq_some_iff.mp h
    cases h
    exact (Grows.of_accesses (translateExpression_onlyAccesses value hcode)).point
  | .logCall _ args, state, _, _, h => by
    obtain ⟨code, hcode, h⟩ := Option.bind_eq_some_iff.mp h
    cases h
    exact (Grows.of_accesses (translateLog_onlyAccesses args hcode)).point
  | .initializationBlock .., _, _, _, h => by cases h
  | .multSubstitution .., _, _, _, h => by cases h
  | .underscoreSubstitution .., _, _, _, h => by cases h

theorem translateStatements_grows : ∀ (stmts : List Statement) {state state' : State} {code : List SlotCode},
    translateStatements concreteDimensions stmts state = some (state', code) → Grows state state' code
  | [], state, _, _, h => by
    cases h
    exact (Grows.of_accesses OnlyAccesses.nil).point
  | stmt :: stmts, state, _, _, h => by
    obtain ⟨⟨state', first⟩, hfirst, h⟩ := Option.bind_eq_some_iff.mp h
    obtain ⟨⟨state'', rest⟩, hrest, h⟩ := Option.bind_eq_some_iff.mp h
    cases h
    exact (translateStatement_grows stmt hfirst).trans (translateStatements_grows stmts hrest)

end

/-! ## Scopes -/

mutual

/-- A statement that is no declaration, and in which declarations are statements of blocks, as in the grammar. -/
def DeclaresInBlocks : Statement → Prop
  | .declaration .. => False
  | .block _ stmts => AllDeclareInBlocks stmts
  | .ifThenElse _ _ ifCase none => DeclaresInBlocks ifCase
  | .ifThenElse _ _ ifCase (some elseCase) => DeclaresInBlocks ifCase ∧ DeclaresInBlocks elseCase
  | .whileStmt _ _ stmt => DeclaresInBlocks stmt
  | _ => True

/-- The statements of a block. -/
def AllDeclareInBlocks : List Statement → Prop
  | [] => True
  | .declaration .. :: stmts => AllDeclareInBlocks stmts
  | stmt :: stmts => DeclaresInBlocks stmt ∧ AllDeclareInBlocks stmts

end

/-- The translation of a statement other than a declaration leaves the environment and the top of the stack as they
are, and can stand in front of code with the same variables. -/
structure Scoped (state state' : State) (code : List SlotCode) : Prop where
  environment : state'.environment = state.environment
  variableStack : state'.variableStack = state.variableStack
  wellScoped : ∀ {live : List Slot} {rest : List SlotCode}, state.live ⊆ live →
    WellScoped live state.variableStack rest → WellScoped live state.variableStack (code ++ rest)

namespace Scoped

variable {state' state'' : State} {code code' : List SlotCode}

theorem of_accesses (hcode : OnlyAccesses state.live code) : Scoped state state code where
  environment := rfl
  variableStack := rfl
  wellScoped hlive hrest := WellScoped.accesses (fun c hc => (by
    obtain ⟨slot, hslot, hc⟩ := hcode c hc
    exact ⟨slot, hlive hslot, hc⟩)) hrest

theorem point (h : Scoped state state' code) : Scoped state state' (.point state.live :: code) where
  environment := h.environment
  variableStack := h.variableStack
  wellScoped hlive hrest := .point (h.wellScoped hlive hrest)

theorem trans (h : Scoped state state' code) (h' : Scoped state' state'' code') :
    Scoped state state'' (code ++ code') where
  environment := h'.environment.trans h.environment
  variableStack := h'.variableStack.trans h.variableStack
  wellScoped {live rest} hlive hrest := by
    rw [List.append_assoc]
    refine h.wellScoped hlive ?_
    have hscoped : state'.live ⊆ live → WellScoped live state'.variableStack rest →
        WellScoped live state'.variableStack (code' ++ rest) := h'.wellScoped
    rw [live_congr h.environment, h.variableStack] at hscoped
    exact hscoped hlive hrest

/-- The code of the statement on its own. -/
theorem alone (h : Scoped state state' code) (hlive : state.live ⊆ live) :
    WellScoped live state.variableStack code := by
  have hscoped := h.wellScoped hlive .nil
  rwa [List.append_nil] at hscoped

theorem branch (h : Scoped state state' code) (h' : Scoped state' state'' code') :
    Scoped state state'' [.branch code code'] where
  environment := h'.environment.trans h.environment
  variableStack := h'.variableStack.trans h.variableStack
  wellScoped {live rest} hlive hrest := by
    have helse : state'.live ⊆ live → WellScoped live state'.variableStack code' := h'.alone
    rw [live_congr h.environment, h.variableStack] at helse
    exact .branch (h.alone hlive) (helse hlive) hrest

theorem loop (h : Scoped state state code) (h' : Scoped state state' code') :
    Scoped state state' [.loop code code'] where
  environment := h'.environment
  variableStack := h'.variableStack
  wellScoped hlive hrest := .loop (h.alone hlive) (h'.alone hlive) hrest

end Scoped

mutual

theorem translateStatement_scoped : ∀ (stmt : Statement) {state state' : State} {code : List SlotCode},
    DeclaresInBlocks stmt → translateStatement concreteDimensions stmt state = some (state', code) →
      Scoped state state' code
  | .declaration .., _, _, _, hdeclares, _ => hdeclares.elim
  | .substitution _ var access _ rhe, state, _, _, _, h => by
    obtain ⟨symbol, hsymbol, h⟩ := Option.bind_eq_some_iff.mp h
    obtain ⟨indexes, hindexes, h⟩ := Option.bind_eq_some_iff.mp h
    obtain ⟨src, hsrc, h⟩ := Option.bind_eq_some_iff.mp h
    cases h
    exact (Scoped.of_accesses (((accessCode_onlyAccesses hsymbol).append
      (translateAccesses_onlyAccesses access hindexes)).append (translateExpression_onlyAccesses rhe hsrc))).point
  | .block _ stmts, state, _, _, hdeclares, h => by
    obtain ⟨⟨inner, code⟩, hinner, h⟩ := Option.bind_eq_some_iff.mp h
    cases h
    refine Scoped.point ⟨(translateStatements_grows stmts hinner).tail, rfl, ?_⟩
    intro live rest hlive hrest
    exact .block ((translateStatements_wellScoped stmts hdeclares hinner).weaken hlive (Nat.le_refl _)) hrest
  | .ifThenElse _ cond ifCase none, state, _, _, hdeclares, h => by
    obtain ⟨condCode, hcond, h⟩ := Option.bind_eq_some_iff.mp h
    obtain ⟨⟨state', ifCode⟩, hif, h⟩ := Option.bind_eq_some_iff.mp h
    cases h
    have hcond := Scoped.of_accesses (translateExpression_onlyAccesses cond hcond)
    exact (hcond.trans ((translateStatement_scoped ifCase hdeclares hif).branch (.of_accesses .nil))).point
  | .ifThenElse _ cond ifCase (some elseCase), state, _, _, hdeclares, h => by
    obtain ⟨condCode, hcond, h⟩ := Option.bind_eq_some_iff.mp h
    obtain ⟨⟨state', ifCode⟩, hif, h⟩ := Option.bind_eq_some_iff.mp h
    obtain ⟨⟨state'', elseCode⟩, helse, h⟩ := Option.bind_eq_some_iff.mp h
    cases h
    have hcond := Scoped.of_accesses (translateExpression_onlyAccesses cond hcond)
    exact (hcond.trans ((translateStatement_scoped ifCase hdeclares.1 hif).branch
      (translateStatement_scoped elseCase hdeclares.2 helse))).point
  | .whileStmt _ cond stmt, state, _, _, hdeclares, h => by
    obtain ⟨condCode, hcond, h⟩ := Option.bind_eq_some_iff.mp h
    obtain ⟨⟨state', body⟩, hbody, h⟩ := Option.bind_eq_some_iff.mp h
    cases h
    have hcond := Scoped.of_accesses (translateExpression_onlyAccesses cond hcond)
    exact (hcond.loop (translateStatement_scoped stmt hdeclares hbody)).point
  | .assert _ arg, state, _, _, _, h => by
    obtain ⟨code, hcode, h⟩ := Option.bind_eq_some_iff.mp h
    cases h
    exact (Scoped.of_accesses (translateExpression_onlyAccesses arg hcode)).point
  | .constraintEquality _ lhe rhe, state, _, _, _, h => by
    obtain ⟨lheCode, hlhe, h⟩ := Option.bind_eq_some_iff.mp h
    obtain ⟨rheCode, hrhe, h⟩ := Option.bind_eq_some_iff.mp h
    cases h
    exact (Scoped.of_accesses ((translateExpression_onlyAccesses lhe hlhe).append
      (translateExpression_onlyAccesses rhe hrhe))).point
  | .returnStmt _ value, state, _, _, _, h => by
    obtain ⟨code, hcode, h⟩ := Option.bind_eq_some_iff.mp h
    cases h
    exact (Scoped.of_accesses (translateExpression_onlyAccesses value hcode)).point
  | .logCall _ args, state, _, _, _, h => by
    obtain ⟨code, hcode, h⟩ := Option.bind_eq_some_iff.mp h
    cases h
    exact (Scoped.of_accesses (translateLog_onlyAccesses args hcode)).point
  | .initializationBlock .., _, _, _, _, h => by cases h
  | .multSubstitution .., _, _, _, _, h => by cases h
  | .underscoreSubstitution .., _, _, _, _, h => by cases h

/-- A declaration makes a variable live for the statements behind it. -/
theorem translateStatements_wellScoped : ∀ (stmts : List Statement) {state state' : State}
    {code : List SlotCode}, AllDeclareInBlocks stmts →
      translateStatements concreteDimensions stmts state = some (state', code) →
        WellScoped state.live state.variableStack code
  | [], _, _, _, _, h => by
    cases h
    exact .point .nil
  | stmt :: stmts, state, _, _, hdeclares, h => by
    obtain ⟨⟨state', first⟩, hfirst, h⟩ := Option.bind_eq_some_iff.mp h
    obtain ⟨⟨state'', rest⟩, hrest, h⟩ := Option.bind_eq_some_iff.mp h
    cases h
    by_cases hdeclaration : ∃ info xtype name dims c a, stmt = .declaration info xtype name dims c a
    · obtain ⟨info, xtype, name, dims, c, a, rfl⟩ := hdeclaration
      cases hfirst
      have hwell := translateStatements_wellScoped stmts hdeclares hrest
      exact .point (.reserve (Nat.le_refl _)
        (hwell.weaken (live_reserveVariable state name _).subset (Nat.le_refl _)))
    · have hboth : DeclaresInBlocks stmt ∧ AllDeclareInBlocks stmts := by
        cases stmt with
        | declaration info xtype name dims c a => exact absurd ⟨_, _, _, _, _, _, rfl⟩ hdeclaration
        | _ => exact hdeclares
      have hscoped := translateStatement_scoped stmt hboth.1 hfirst
      refine hscoped.wellScoped (fun _ h => h) ?_
      have hwell := translateStatements_wellScoped stmts hboth.2 hrest
      rwa [live_congr hscoped.environment, hscoped.variableStack] at hwell

end

/-! ## Parameters and constants -/

/-- Code that makes variables live for the code behind it. -/
structure Opens (state state' : State) (code : List SlotCode) : Prop where
  grows : Grows state state' code
  wellScoped : ∀ rest, WellScoped state'.live state'.variableStack rest →
    WellScoped state.live state.variableStack (code ++ rest)

theorem Opens.nil (state : State) : Opens state state [] where
  grows := .of_accesses .nil
  wellScoped _ h := h

/-- A variable that is stored to, and code behind it. -/
theorem Opens.reserveVariable {dimensions : List ℕ} {stores : List SlotCode}
    (hstores : ∀ c ∈ stores, c = .access (state.reserveVariable name dimensions).1)
    (h : Opens (state.reserveVariable name dimensions).2 state' code) :
    Opens state state' (.reserve (state.reserveVariable name dimensions).1 :: (stores ++ code)) where
  grows := by
    have haccesses : OnlyAccesses [(state.reserveVariable name dimensions).1] stores :=
      fun c hc => ⟨_, List.mem_singleton_self _, hstores c hc⟩
    refine ((Grows.reserveVariable state name dimensions).trans h.grows).of_code ?_ fun P hP => ?_
    · show _ :: reservations (stores ++ code) = _ :: reservations code
      rw [reservations_append, reservations_accesses haccesses]
      rfl
    · exact ⟨trivial, allPoints_append.mpr ⟨allPoints_accesses haccesses, hP.2⟩⟩
  wellScoped rest hrest := by
    refine .reserve (Nat.le_refl _) ?_
    show WellScoped _ _ ((stores ++ code) ++ rest)
    rw [List.append_assoc]
    refine WellScoped.accesses (fun c hc => ⟨_, List.mem_cons_self, hstores c hc⟩) ?_
    exact (h.wellScoped rest hrest).weaken (live_reserveVariable state name dimensions).subset (Nat.le_refl _)

theorem initializeParameters_opens : ∀ (params : List Param) (state : State),
    Opens state (initializeParameters state params).1 (initializeParameters state params).2
  | [], state => .nil state
  | p :: params, state => by
    have hopens := initializeParameters_opens params (state.reserveVariable p.name p.length).2
    have hstores : ∀ c ∈ ([] : List SlotCode), c = .access (state.reserveVariable p.name p.length).1 :=
      fun c hc => absurd hc List.not_mem_nil
    exact Opens.reserveVariable hstores hopens

theorem initializeConstants_opens : ∀ (constants : List Argument) (state : State),
    Opens state (initializeConstants state constants).1 (initializeConstants state constants).2
  | [], state => .nil state
  | arg :: constants, state => by
    have hopens := initializeConstants_opens constants (state.reserveVariable arg.name arg.lengths).2
    refine Opens.reserveVariable (fun c hc => ?_) hopens
    obtain ⟨value, -, rfl⟩ := List.mem_map.mp hc
    rfl

/-! ## Wires and components -/

/-- Symbols are laid out one behind the other on one of the other stacks. -/
structure LaysOut (space : AddressSpace) (sizes : List ℕ) (state state' : State) (start stop : ℕ) : Prop where
  variableStack : state'.variableStack = state.variableStack
  live : state'.live ⊆ state.live
  reserved : ∃ infos, state'.reserved = state.reserved ++ infos ∧ Numbered state.reserved.length infos ∧
    (∀ info ∈ infos, info.space = space) ∧ (infos.map SymbolInfo.slot).map Slot.size = sizes ∧
    Consecutive start (infos.map SymbolInfo.slot) stop

theorem LaysOut.nil (space : AddressSpace) (state : State) (n : ℕ) : LaysOut space [] state state n n where
  variableStack := rfl
  live _ h := h
  reserved := ⟨[], (List.append_nil _).symm, trivial, fun _ h => absurd h List.not_mem_nil, rfl, .nil n⟩

theorem live_add (h : info.space ≠ .variables) : (state.add name info).live ⊆ state.live := by
  have hsublist := (flatMap_addVariable_sublist state.environment name info).filterMap
    fun info => if info.space = .variables then some info.slot else none
  simp only [List.filterMap_cons, if_neg h] at hsublist
  exact hsublist.subset

theorem LaysOut.add {sizes : List ℕ} {next : State} {stop : ℕ} (h : LaysOut space sizes next state' info.slot.stop stop)
    (hspace : space ≠ .variables) (hinfo : info.space = space) (hsite : info.slot.site = state.reserved.length)
    (hreserved : next.reserved = state.reserved ++ [info])
    (henvironment : next.environment = (state.add name info).environment)
    (hstack : next.variableStack = state.variableStack) :
    LaysOut space (info.slot.size :: sizes) state state' info.slot.start stop where
  variableStack := h.variableStack.trans hstack
  live slot hslot := by
    have hnext := h.live hslot
    rw [live_congr henvironment] at hnext
    exact live_add (hinfo ▸ hspace) hnext
  reserved := by
    obtain ⟨infos, hinfos, hnumbered, hspaces, hsizes, hconsecutive⟩ := h.reserved
    rw [hreserved, List.length_append] at hnumbered
    refine ⟨info :: infos, ?_, ⟨hsite, hnumbered⟩, List.forall_mem_cons.mpr ⟨hinfo, hspaces⟩, ?_, .cons hconsecutive⟩
    · rw [hinfos, hreserved, List.append_assoc]
      rfl
    · rw [List.map_cons, List.map_cons, hsizes]

theorem initializeSignals_laysOut : ∀ (wires : List Wire) (state : State),
    LaysOut .signals (wires.map Wire.size) state (initializeSignals state wires) state.signalStack
        (initializeSignals state wires).signalStack ∧
      (initializeSignals state wires).componentAddressStack = state.componentAddressStack
  | [], state => ⟨.nil .signals state state.signalStack, rfl⟩
  | wire :: wires, state => by
    obtain ⟨hlays, hcomponents⟩ := initializeSignals_laysOut wires (state.reserveSignal wire)
    have hspace : AddressSpace.signals ≠ .variables := by simp
    let info : SymbolInfo := ⟨.signals, ⟨state.reserved.length, state.signalStack, wire.size⟩, wire.lengths, false,
      wire.busId.isSome, wire.busId⟩
    have hlays : LaysOut .signals (wires.map Wire.size) (state.reserveSignal wire)
      (initializeSignals state (wire :: wires)) info.slot.stop _ := hlays
    exact ⟨hlays.add hspace rfl rfl rfl rfl rfl, hcomponents⟩

theorem initializeComponents_laysOut : ∀ (components : List Component) (state : State),
    LaysOut .components (components.map fun component => fullSize component.lengths) state
        (initializeComponents state components) state.componentAddressStack
        (initializeComponents state components).componentAddressStack ∧
      (initializeComponents state components).signalStack = state.signalStack
  | [], state => ⟨.nil .components state state.componentAddressStack, rfl⟩
  | component :: components, state => by
    obtain ⟨hlays, hsignals⟩ := initializeComponents_laysOut components (state.reserveComponentAddress component)
    have hspace : AddressSpace.components ≠ .variables := by simp
    let info : SymbolInfo := ⟨.components, ⟨state.reserved.length, state.componentAddressStack,
      fullSize component.lengths⟩, component.lengths, true, false, none⟩
    have hlays : LaysOut .components (components.map fun component => fullSize component.lengths)
      (state.reserveComponentAddress component) (initializeComponents state (component :: components))
      info.slot.stop _ := hlays
    exact ⟨hlays.add hspace rfl rfl rfl rfl rfl, hsignals⟩

/-! ## The whole body -/

/-- The slots of one of the stacks, in the order of their reservation. -/
def slotsOf (space : AddressSpace) (reserved : List SymbolInfo) : List Slot :=
  (reserved.filter fun info => info.space = space).map SymbolInfo.slot

/-- Slots of the given sizes that follow each other, do not overlap and cover the cells below the depth. -/
def Tiles (slots : List Slot) (sizes : List ℕ) (depth : ℕ) : Prop :=
  slots.map Slot.size = sizes ∧ Consecutive 0 slots depth ∧ slots.Pairwise Slot.Disjoint ∧
    ∀ cell, (∃ slot ∈ slots, slot.Has cell) ↔ cell < depth

theorem Tiles.of_consecutive {slots : List Slot} {sizes : List ℕ} {depth : ℕ} (hsizes : slots.map Slot.size = sizes)
    (h : Consecutive 0 slots depth) : Tiles slots sizes depth :=
  ⟨hsizes, h, h.pairwise, fun cell => (h.has_iff cell).trans (and_iff_right (Nat.zero_le cell))⟩

theorem slotsOf_append (space : AddressSpace) (infos infos' : List SymbolInfo) :
    slotsOf space (infos ++ infos') = slotsOf space infos ++ slotsOf space infos' := by
  unfold slotsOf
  rw [List.filter_append, List.map_append]

theorem slotsOf_self (h : ∀ info ∈ infos, info.space = space) : slotsOf space infos = infos.map SymbolInfo.slot := by
  unfold slotsOf
  rw [List.filter_eq_self.mpr fun info hinfo => decide_eq_true (h info hinfo)]

theorem slotsOf_other {other : AddressSpace} (hne : other ≠ space)
    (h : ∀ info ∈ infos, info.space = other) : slotsOf space infos = [] := by
  unfold slotsOf
  rw [List.filter_eq_nil_iff.mpr fun info hinfo => ?_, List.map_nil]
  rw [h info hinfo]
  simpa using hne

/-- The wires and the components, before the variables of the body. -/
theorem initialize_laysOut (codeInfo : CodeInfo) :
    LaysOut .components (codeInfo.components.map fun component => fullSize component.lengths) .new
        (initializeComponents .new codeInfo.components) 0
        (initializeComponents .new codeInfo.components).componentAddressStack ∧
      LaysOut .signals (codeInfo.wires.map Wire.size) (initializeComponents .new codeInfo.components)
        (initializeSignals (initializeComponents .new codeInfo.components) codeInfo.wires) 0
        (initializeSignals (initializeComponents .new codeInfo.components) codeInfo.wires).signalStack ∧
      (initializeSignals (initializeComponents .new codeInfo.components) codeInfo.wires).componentAddressStack =
        (initializeComponents .new codeInfo.components).componentAddressStack := by
  obtain ⟨hcomponents, hsignalStack⟩ := initializeComponents_laysOut codeInfo.components .new
  obtain ⟨hsignals, hstack⟩ :=
    initializeSignals_laysOut codeInfo.wires (initializeComponents .new codeInfo.components)
  rw [hsignalStack] at hsignals
  exact ⟨hcomponents, hsignals, hstack⟩

/-- The variables that are live at a point of the code do not overlap and are below the depth of the stack. In every
run of a body in which declarations are statements of blocks, a variable that is accessed has the cells that its
declaration has reserved, and no other declaration has reserved one of them since. Every declaration has a site of
its own. The wires and the components tile the other stacks. -/
theorem translateCode_layout {body : Statement} {codeInfo : CodeInfo} {out : CodeOutput}
    (h : translateCode concreteDimensions body codeInfo = some out) :
    AllPoints (Separate out.stackDepth) out.code ∧
      (DeclaresInBlocks body → ∀ events finished, SlotRuns out.code events finished →
        Owners.Intact (fun _ => none) events) ∧
      Numbered 0 out.reserved ∧ reservations out.code = slotsOf .variables out.reserved ∧
      Tiles (slotsOf .signals out.reserved) (codeInfo.wires.map Wire.size) out.signalDepth ∧
      Tiles (slotsOf .components out.reserved)
        (codeInfo.components.map fun component => fullSize component.lengths) out.componentDepth := by
  obtain ⟨hcomponents, hsignals, hcomponentStack⟩ := initialize_laysOut codeInfo
  generalize hs1 : initializeComponents .new codeInfo.components = s1 at hcomponents hsignals hcomponentStack
  generalize hs2 : initializeSignals s1 codeInfo.wires = s2 at hsignals hcomponentStack
  have hconstants := initializeConstants_opens codeInfo.constants s2
  have hparams := initializeParameters_opens codeInfo.params (initializeConstants s2 codeInfo.constants).1
  obtain ⟨⟨s5, code⟩, hbody, hout⟩ : ∃ result, translateStatement concreteDimensions body
      (initializeParameters (initializeConstants s2 codeInfo.constants).1 codeInfo.params).1 = some result ∧
      some (CodeOutput.mk result.1.maxStackDepth result.1.signalStack result.1.componentAddressStack
        result.1.reserved ((initializeConstants s2 codeInfo.constants).2 ++
          (initializeParameters (initializeConstants s2 codeInfo.constants).1 codeInfo.params).2 ++ result.2 ++
          [.point result.1.live])) = some out := by
    rw [← hs2, ← hs1]
    exact Option.bind_eq_some_iff.mp h
  generalize (initializeConstants s2 codeInfo.constants).2 = constants at hconstants hout
  generalize (initializeConstants s2 codeInfo.constants).1 = s3 at hconstants hparams hbody hout
  generalize (initializeParameters s3 codeInfo.params).2 = params at hparams hout
  generalize (initializeParameters s3 codeInfo.params).1 = s4 at hparams hbody
  cases hout
  have hgrows := (hconstants.grows.trans hparams.grows).trans (translateStatement_grows body hbody)
  have hall := hgrows.trans (Grows.of_accesses OnlyAccesses.nil).point
  have hlive : s2.live = [] := List.eq_nil_of_subset_nil fun slot hslot => hcomponents.live (hsignals.live hslot)
  have hstack : s2.variableStack = 0 := hsignals.variableStack.trans hcomponents.variableStack
  have hfits : Fits s2 := by
    unfold Fits Separate
    rw [hlive, hstack]
    exact ⟨⟨.nil, fun slot hslot => absurd hslot List.not_mem_nil⟩, Nat.zero_le _⟩
  obtain ⟨infos1, hinfos1, hnumbered1, hspace1, hsizes1, hconsecutive1⟩ := hcomponents.reserved
  obtain ⟨infos2, hinfos2, hnumbered2, hspace2, hsizes2, hconsecutive2⟩ := hsignals.reserved
  obtain ⟨infos3, hinfos3, hnumbered3, hspace3, hslots3⟩ := hall.reserved
  have hinfos1 : s1.reserved = infos1 := hinfos1
  rw [hinfos1] at hinfos2 hnumbered2
  rw [hinfos2, List.length_append] at hnumbered3
  rw [hinfos2] at hinfos3
  have hreserved : ∀ space, slotsOf space s5.reserved =
      slotsOf space infos1 ++ (slotsOf space infos2 ++ slotsOf space infos3) := by
    intro space
    rw [hinfos3, slotsOf_append, slotsOf_append, List.append_assoc]
  refine ⟨(hall.fits hfits).2, fun hdeclares events finished hrun => ?_, ?_, ?_, ?_, ?_⟩
  · have hscoped := translateStatement_scoped body hdeclares hbody
    have hwell : WellScoped s2.live s2.variableStack
        (constants ++ (params ++ (code ++ [.point s5.live]))) :=
      hconstants.wellScoped _ (hparams.wellScoped _ (hscoped.wellScoped (fun _ h => h) (.point .nil)))
    rw [← List.append_assoc, ← List.append_assoc] at hwell
    refine (hrun.safe hwell ?_).1
    rw [hlive]
    exact fun slot hslot => absurd hslot List.not_mem_nil
  · rw [hinfos3, List.append_assoc]
    have hnumbered2 : Numbered (0 + infos1.length) infos2 := by rwa [Nat.zero_add]
    have hnumbered3 : Numbered (0 + infos1.length + infos2.length) infos3 := by rwa [Nat.zero_add]
    exact Numbered.append hnumbered1 (hnumbered2.append hnumbered3)
  · have h1 : slotsOf .variables infos1 = [] := slotsOf_other (by simp) hspace1
    have h2 : slotsOf .variables infos2 = [] := slotsOf_other (by simp) hspace2
    rw [hreserved, h1, h2, slotsOf_self hspace3]
    exact hslots3.symm
  · have h1 : slotsOf .signals infos1 = [] := slotsOf_other (by simp) hspace1
    have h3 : slotsOf .signals infos3 = [] := slotsOf_other (by simp) hspace3
    rw [hreserved, h1, slotsOf_self hspace2, h3, List.nil_append, List.append_nil]
    show Tiles _ _ s5.signalStack
    rw [hgrows.signalStack]
    exact .of_consecutive hsizes2 hconsecutive2
  · have h2 : slotsOf .components infos2 = [] := slotsOf_other (by simp) hspace2
    have h3 : slotsOf .components infos3 = [] := slotsOf_other (by simp) hspace3
    rw [hreserved, slotsOf_self hspace1, h2, h3, List.append_nil, List.append_nil]
    show Tiles _ _ s5.componentAddressStack
    rw [hgrows.componentAddressStack, hcomponentStack]
    exact .of_consecutive hsizes1 hconsecutive1

/-- `{ var x[2]; while (x[0]) { var x; x = n; } }` -/
def shadowingLoop : Statement :=
  .block ⟨0, 0, none⟩ [.declaration ⟨1, 0, none⟩ .var "x" [.number ⟨2, 0, none⟩ 2] false false,
    .whileStmt ⟨3, 0, none⟩ (.var ⟨4, 0, none⟩ "x" [.arrayAccess (.number ⟨5, 0, none⟩ 0)])
      (.block ⟨6, 0, none⟩ [.declaration ⟨7, 0, none⟩ .var "x" [] false false,
        .substitution ⟨8, 0, none⟩ "x" [] .assignVar (.var ⟨9, 0, none⟩ "n" [])])]

/-- In a template with a parameter `n` the two variables `x` take the cells 1, 2 and 3. -/
theorem translateCode_layout_shadowingLoop :
    ∃ out, translateCode (fun info => if info.elemId = 1 then [2] else []) shadowingLoop
        ⟨[], [⟨"s", [3], 3, none⟩], [⟨"n", [5], []⟩], []⟩ = some out ∧
      out.stackDepth = 4 ∧ AllPoints (Separate 4) out.code ∧
      (∀ events finished, SlotRuns out.code events finished → Owners.Intact (fun _ => none) events) ∧
      slotsOf .variables out.reserved = [⟨1, 0, 1⟩, ⟨2, 1, 2⟩, ⟨3, 3, 1⟩] := by
  obtain ⟨out, hout, hdepth, hslots⟩ : ∃ out, translateCode (fun info => if info.elemId = 1 then [2] else [])
      shadowingLoop ⟨[], [⟨"s", [3], 3, none⟩], [⟨"n", [5], []⟩], []⟩ = some out ∧ out.stackDepth = 4 ∧
      slotsOf .variables out.reserved = [⟨1, 0, 1⟩, ⟨2, 1, 2⟩, ⟨3, 3, 1⟩] := ⟨_, rfl, rfl, rfl⟩
  obtain ⟨hpoints, hruns, -⟩ := translateCode_layout hout
  rw [hdepth] at hpoints
  have hdeclares : DeclaresInBlocks shadowingLoop := by
    simp [shadowingLoop, DeclaresInBlocks, AllDeclareInBlocks]
  exact ⟨out, hout, hdepth, hpoints, hruns hdeclares, hslots⟩

end Circom.IntermediateRepresentation.Layout
