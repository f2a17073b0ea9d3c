import Circom.IrProcessing.Evaluation
import Mathlib.Order.MinMax

/-!
# The auxiliary slots

The pass numbers the slots of every expression with a counter that starts at zero. It is shown that the built
instructions are the numbered ones, and that the depth is the largest number of slots that are in use, except that
the result of a call without arguments is not counted.
-/

namespace Circom.IrProcessing.BuildStack

open Circom.Lib.Slots Term
open Circom.IntermediateRepresentation (OperatorType)

variable {xtype : AddressType} {e : Evaluation} {expr : Expression} {i : Instruction} {es : List Evaluation}
variable {cs us : List Term} {l : List ℕ} {dest : LocationRule} {depth f n s : ℕ}

/-! ## Depths -/

/-- The depth is the largest number of the list, as far as numbers above `n` are concerned. -/
def Reaches (n depth : ℕ) (levels : List ℕ) : Prop := ∀ k, n ≤ k → (k < depth ↔ ∃ r ∈ levels, k < r)

theorem reaches_nil (n : ℕ) : Reaches n 0 [] := by
  intro k _
  simp

theorem Reaches.cons {levels : List ℕ} (h : Reaches n depth levels) (r : ℕ) :
    Reaches n (max r depth) (r :: levels) := by
  intro k hk
  have := h k hk
  simp only [List.mem_cons, exists_eq_or_imp, ← this]
  omega

/-- The level below the numbers that are of concern. -/
theorem Reaches.start {levels : List ℕ} (h : Reaches n depth levels) : Reaches n depth (n :: levels) := by
  intro k hk
  have := h k hk
  simp only [List.mem_cons, exists_eq_or_imp, ← this]
  omega

/-- The numbers below the second depth are reached by the first one. -/
theorem Reaches.append {m d d' : ℕ} {l' : List ℕ} (h : Reaches n d l) (h' : Reaches m d' l')
    (hm : m ≤ n ∨ ∃ r ∈ l, m ≤ r) : Reaches n (max d d') (l ++ l') := by
  intro k hk
  have hl := h k hk
  simp only [List.mem_append, or_and_right, exists_or, lt_max_iff]
  by_cases hmk : m ≤ k
  · rw [hl, h' k hmk]
  · rcases hm with hm | ⟨r, hr, hle⟩
    · omega
    · have hlt : ∃ r ∈ l, k < r := ⟨r, hr, by omega⟩
      exact iff_of_true (Or.inl (hl.mpr hlt)) (Or.inl hlt)

/-- A depth above the start is a depth for all numbers. -/
theorem Reaches.all {d : ℕ} (h : Reaches n d l) (hd : n ≤ d) (hl : ∃ r ∈ l, n ≤ r) : Reaches 0 d l := by
  intro k _
  by_cases hk : n ≤ k
  · exact h k hk
  · obtain ⟨r, hr, hle⟩ := hl
    exact iff_of_true (by omega) ⟨r, hr, by omega⟩

theorem Reaches.append_all {d d' : ℕ} {l' : List ℕ} (h : Reaches 0 d l) (h' : Reaches 0 d' l') :
    Reaches 0 (max d d') (l ++ l') :=
  h.append h' (Or.inl (Nat.le_refl 0))

/-! ## Operands and addresses -/

/-- The result of a pass over a term: it is numbered from `n` on, and the counter is behind the slots that hold it. -/
def BuildsTerm {α : Type} (n : ℕ) (term : Term) (view : α → Option Term) (result : Option (α × ℕ × ℕ)) : Prop :=
  ∃ i depth, result = some (i, depth, n + (held term).length) ∧ view i = some (number n term) ∧
    Reaches n depth (inUse n term)

def BuildsTerms {α : Type} (n : ℕ) (terms : List Term) (view : α → Option (List Term))
    (result : Option (α × ℕ × ℕ)) : Prop :=
  ∃ i depth, result = some (i, depth, n + (heldAll terms).length) ∧ view i = some (numberAll n terms) ∧
    Reaches n depth (inUseAll n terms)

theorem reaches_cons {d d' : ℕ} {t : Term} {ts : List Term} (h : Reaches n d (inUse n t))
    (h' : Reaches (n + (held t).length) d' (inUseAll (n + (held t).length) ts)) :
    Reaches n (max d d') (inUseAll n (t :: ts)) :=
  h.append h' (Or.inr (exists_inUse_ge n t))

theorem reaches_append {d d' : ℕ} {ts : List Term} (h : Reaches n d (inUseAll n ts))
    (h' : Reaches (n + (heldAll ts).length) d' (inUseAll (n + (heldAll ts).length) us)) :
    Reaches n (max d d') (inUseAll n (ts ++ us)) := by
  rw [inUseAll_append]
  refine h.append h' ?_
  rcases exists_inUseAll_ge n ts with hnil | hge
  · exact Or.inl (by rw [hnil]; exact Nat.le_refl n)
  · exact Or.inr hge

theorem reaches_single {d : ℕ} {t : Term} (h : Reaches n d (inUse n t)) : Reaches n d (inUseAll n [t]) := by
  have := @reaches_cons n d 0 t [] h (reaches_nil _)
  rwa [Nat.max_zero] at this

variable {sanityCheck : Bool}

/-- The counter and the depth of a load. -/
theorem builds_load {addressType : AddressType} {src : LocationRule} {checks : List OutBoundsCheck} {ts : List Term}
    (hat : BuildsTerms n ts (addressTypeTerms sanityCheck) (buildAddressType n addressType))
    (hsrc : BuildsTerms (n + (heldAll ts).length) us (locationTerms sanityCheck) (buildLocation (n + (heldAll ts).length) src))
    (hchecks : checkTerms sanityCheck checks = some cs) :
    BuildsTerm n (.checked (ts ++ us) cs) (operand sanityCheck)
      (buildInstructionCompute n (.load addressType src checks)) := by
  obtain ⟨addressType', v0, hbuildType, hviewType, hreachType⟩ := hat
  obtain ⟨src', v1, hbuildSrc, hviewSrc, hreachSrc⟩ := hsrc
  refine ⟨.load addressType' src' checks, max v0 v1, ?_, ?_, (reaches_append hreachType hreachSrc).start⟩
  · rw [buildInstructionCompute, hbuildType]
    simp only [Option.bind_eq_bind, Option.bind_some, hbuildSrc]
    rw [held, heldAll_append, List.length_append, Nat.add_assoc]
  · rw [operand, hviewType]
    simp only [Option.bind_eq_bind, Option.bind_some, hviewSrc, hchecks]
    rw [number, numberAll_append]

theorem builds_compute {op : OperatorType} {opAuxNo : ℕ} {stack : List Instruction} {ts : List Term}
    (hop : op.isAddressOp = false) (h : BuildsTerms (n + 1) ts (operands sanityCheck) (buildOperands (n + 1) stack)) :
    BuildsTerm n (.value opAuxNo ts) (operand sanityCheck) (buildInstructionCompute n (.compute op opAuxNo stack)) := by
  obtain ⟨stack', maxStack, hbuild, hview, hreach⟩ := h
  refine ⟨.compute op n stack', max (n + 1) maxStack, ?_, ?_, ?_⟩
  · rw [buildInstructionCompute, buildCompute, hop, hbuild]
    rfl
  · rw [operand, hop, hview]
    rfl
  · intro k hk
    by_cases hlt : k < n + 1
    · exact iff_of_true (by omega) ⟨n + 1, List.mem_cons_self, hlt⟩
    · exact hreach.cons (n + 1) k (by omega)

theorem builds_address {op : OperatorType} {opAuxNo : ℕ} {ts : List Term} {view : List Instruction → Option (List Term)}
    {result : Option (List Instruction × ℕ × ℕ)}
    (hview : ∀ stack terms, view stack = some terms → address sanityCheck (.compute op opAuxNo stack) = some (.through terms))
    (h : BuildsTerms n ts view result) :
    BuildsTerm n (.through ts) (address sanityCheck) (buildComputeAddress op opAuxNo n result) := by
  obtain ⟨stack', maxStack, rfl, hstack, hreach⟩ := h
  exact ⟨_, _, rfl, hview stack' _ hstack, hreach.cons n⟩

/-- The rest of a list is built behind the slots that hold the first one. -/
theorem builds_cons {α : Type} {t : Term} {ts : List Term} {i : α} {rest : List α} {view : α → Option Term}
    {views : List α → Option (List Term)} {build : ℕ → α → Option (α × ℕ × ℕ)}
    {builds : ℕ → List α → Option (List α × ℕ × ℕ)}
    (hviews : ∀ i rest t ts, view i = some t → views rest = some ts → views (i :: rest) = some (t :: ts))
    (hbuilds : ∀ {i rest i' d f rest' d' f'}, build n i = some (i', d, f) → builds f rest = some (rest', d', f') → builds n (i :: rest) = some (i' :: rest', max d d', f'))
    (hi : BuildsTerm n t view (build n i))
    (hrest : BuildsTerms (n + (held t).length) ts views (builds (n + (held t).length) rest)) :
    BuildsTerms n (t :: ts) views (builds n (i :: rest)) := by
  obtain ⟨i', d, hbuild, hview, hreach⟩ := hi
  obtain ⟨rest', d', hbuildRest, hviewRest, hreachRest⟩ := hrest
  refine ⟨i' :: rest', max d d', ?_, hviews _ _ _ _ hview hviewRest, reaches_cons hreach hreachRest⟩
  rw [hbuilds hbuild hbuildRest, length_heldAll_cons, Nat.add_assoc]

/-- A location or an address type with one address. -/
theorem builds_single {α : Type} {t : Term} {make : Instruction → α} {view : α → Option (List Term)}
    (hview : ∀ j u, address sanityCheck j = some u → view (make j) = some [u]) {result : Option (Instruction × ℕ × ℕ)}
    (h : BuildsTerm n t (address sanityCheck) result) :
    BuildsTerms n [t] view (result.map fun (i, depth, fresh) => (make i, depth, fresh)) := by
  obtain ⟨i', d, rfl, hi, hreach⟩ := h
  exact ⟨make i', d, by rw [heldAll, heldAll, List.append_nil]; rfl, hview _ _ hi, reaches_single hreach⟩

theorem builds_nil {α : Type} (n : ℕ) (view : List α → Option (List Term)) (h : view [] = some []) :
    BuildsTerms n [] view (some ([], 0, n)) :=
  ⟨[], 0, rfl, h, reaches_nil n⟩

theorem builds_value (n : ℕ) (parseAs : IntermediateRepresentation.ValueType) (v opAuxNo : ℕ) :
    BuildsTerm n (.value opAuxNo []) (operand sanityCheck) (some (.value parseAs v n, n + 1, n + 1)) := by
  refine ⟨_, _, rfl, rfl, ?_⟩
  have := (reaches_nil n).cons (n + 1)
  rwa [Nat.max_zero] at this

/-! The induction follows the instructions. -/

mutual

theorem builds_operand (n : ℕ) : ∀ {i : Instruction} {t : Term}, operand sanityCheck i = some t →
    BuildsTerm n t (operand sanityCheck) (buildInstructionCompute n i)
  | .value parseAs v opAuxNo, _, h => by
    cases h
    exact builds_value n parseAs v opAuxNo
  | .load addressType src checks, _, h => by
    obtain ⟨ts, hts, h⟩ := Option.bind_eq_some_iff.mp h
    obtain ⟨us, hus, h⟩ := Option.bind_eq_some_iff.mp h
    obtain ⟨cs, hcs, h⟩ := Option.bind_eq_some_iff.mp h
    cases h
    exact builds_load (builds_addressType n hts) (builds_location _ hus) hcs
  | .compute op opAuxNo stack, _, h => by
    rw [operand] at h
    cases hop : op.isAddressOp with
    | true =>
      rw [hop, if_pos rfl] at h
      cases h
    | false =>
      rw [hop, if_neg Bool.false_ne_true] at h
      obtain ⟨ts, hts, h⟩ := Option.bind_eq_some_iff.mp h
      cases h
      exact builds_compute hop (builds_operands (n + 1) hts)

theorem builds_operands (n : ℕ) : ∀ {stack : List Instruction} {ts : List Term}, operands sanityCheck stack = some ts →
    BuildsTerms n ts (operands sanityCheck) (buildOperands n stack)
  | [], _, h => by
    cases h
    exact builds_nil n (operands sanityCheck) rfl
  | i :: stack, _, h => by
    obtain ⟨t, ht, h⟩ := Option.bind_eq_some_iff.mp h
    obtain ⟨ts, hts, h⟩ := Option.bind_eq_some_iff.mp h
    cases h
    refine builds_cons ?_ ?_ (builds_operand n ht) (builds_operands _ hts)
    · intro i rest t ts hi hrest
      rw [operands, hi, hrest]
      rfl
    · intro i rest i' d f rest' d' f' hi hrest
      rw [buildOperands, hi]
      simp only [Option.bind_eq_bind, Option.bind_some, hrest]

theorem builds_instructionAddress (n : ℕ) : ∀ {i : Instruction} {t : Term}, address sanityCheck i = some t →
    BuildsTerm n t (address sanityCheck) (buildInstructionAddress n i)
  | .value .., _, h => by
    cases h
    exact ⟨_, _, rfl, rfl, (reaches_nil n).start⟩
  | .compute .addAddress opAuxNo stack, _, h => by
    obtain ⟨ts, hts, h⟩ := Option.bind_eq_some_iff.mp h
    cases h
    exact builds_address (fun _ _ hview => by rw [address, hview]; rfl) (builds_addresses n hts)
  | .compute .mulAddress opAuxNo stack, _, h => by
    obtain ⟨ts, hts, h⟩ := Option.bind_eq_some_iff.mp h
    cases h
    exact builds_address (fun _ _ hview => by rw [address, hview]; rfl) (builds_addresses n hts)
  | .compute .toAddress opAuxNo stack, _, h => by
    obtain ⟨ts, hts, h⟩ := Option.bind_eq_some_iff.mp h
    cases h
    exact builds_address (fun _ _ hview => by rw [address, hview]; rfl) (builds_operands n hts)

theorem builds_addresses (n : ℕ) : ∀ {stack : List Instruction} {ts : List Term}, addresses sanityCheck stack = some ts →
    BuildsTerms n ts (addresses sanityCheck) (buildAddresses n stack)
  | [], _, h => by
    cases h
    exact builds_nil n (addresses sanityCheck) rfl
  | i :: stack, _, h => by
    obtain ⟨t, ht, h⟩ := Option.bind_eq_some_iff.mp h
    obtain ⟨ts, hts, h⟩ := Option.bind_eq_some_iff.mp h
    cases h
    refine builds_cons ?_ ?_ (builds_instructionAddress n ht) (builds_addresses _ hts)
    · intro i rest t ts hi hrest
      rw [addresses, hi, hrest]
      rfl
    · intro i rest i' d f rest' d' f' hi hrest
      rw [buildAddresses, hi]
      simp only [Option.bind_eq_bind, Option.bind_some, hrest]

theorem builds_location (n : ℕ) : ∀ {src : LocationRule} {ts : List Term}, locationTerms sanityCheck src = some ts →
    BuildsTerms n ts (locationTerms sanityCheck) (buildLocation n src)
  | .indexed location, _, h => by
    obtain ⟨t, ht, h⟩ := Option.bind_eq_some_iff.mp h
    cases h
    have hview : ∀ j u, address sanityCheck j = some u → locationTerms sanityCheck (.indexed j) = some [u] := by
      intro j u hj
      rw [locationTerms, hj]
      rfl
    have := builds_single hview (builds_instructionAddress n ht)
    rw [buildLocation]
    rwa [Option.map_eq_bind] at this
  | .mapped signalCode indexes, _, h => by
    obtain ⟨indexes', maxStack, hbuild, hview, hreach⟩ := builds_accesses n h
    refine ⟨.mapped signalCode indexes', max n maxStack, ?_, hview, ?_⟩
    · rw [buildLocation, hbuild]
      rfl
    · intro k hk
      rw [← hreach k hk]
      omega

theorem builds_access (n : ℕ) : ∀ {acc : AccessType} {ts : List Term}, accessTerms sanityCheck acc = some ts →
    BuildsTerms n ts (accessTerms sanityCheck) (buildAccess n acc)
  | .indexed indexes symbolDim, _, h => by
    obtain ⟨indexes', maxStack, hbuild, hview, hreach⟩ := builds_addresses n h
    refine ⟨.indexed indexes' symbolDim, maxStack, ?_, hview, hreach⟩
    rw [buildAccess, hbuild]
    rfl
  | .qualified fieldNo, _, h => by
    cases h
    exact ⟨.qualified fieldNo, 0, rfl, rfl, reaches_nil n⟩

theorem builds_accesses (n : ℕ) : ∀ {indexes : List AccessType} {ts : List Term},
    accessesTerms sanityCheck indexes = some ts → BuildsTerms n ts (accessesTerms sanityCheck) (buildAccesses n indexes)
  | [], _, h => by
    cases h
    exact builds_nil n (accessesTerms sanityCheck) rfl
  | acc :: indexes, _, h => by
    obtain ⟨ts, hts, h⟩ := Option.bind_eq_some_iff.mp h
    obtain ⟨us, hus, h⟩ := Option.bind_eq_some_iff.mp h
    cases h
    obtain ⟨acc', d, hbuild, hview, hreach⟩ := builds_access n hts
    obtain ⟨indexes', d', hbuilds, hviews, hreaches⟩ := builds_accesses (n + (heldAll ts).length) hus
    refine ⟨acc' :: indexes', max d d', ?_, ?_, reaches_append hreach hreaches⟩
    · rw [buildAccesses, hbuild]
      simp only [Option.bind_eq_bind, Option.bind_some, hbuilds]
      rw [heldAll_append, List.length_append, Nat.add_assoc]
    · rw [accessesTerms, hview, hviews, numberAll_append]
      rfl

theorem builds_addressType (n : ℕ) : ∀ {xtype : AddressType} {ts : List Term},
    addressTypeTerms sanityCheck xtype = some ts → BuildsTerms n ts (addressTypeTerms sanityCheck) (buildAddressType n xtype)
  | .var, _, h => by
    cases h
    exact ⟨.var, n, rfl, rfl, fun k hk => by simp [inUseAll]; omega⟩
  | .signal, _, h => by
    cases h
    exact ⟨.signal, n, rfl, rfl, fun k hk => by simp [inUseAll]; omega⟩
  | .subcmpSignal cmpAddress, _, h => by
    obtain ⟨t, ht, h⟩ := Option.bind_eq_some_iff.mp h
    cases h
    obtain ⟨cmpAddress', cmpStack, hbuild, hview, hreach⟩ := builds_instructionAddress n ht
    refine ⟨.subcmpSignal cmpAddress', max n cmpStack, ?_, ?_, ?_⟩
    · rw [buildAddressType, hbuild, heldAll, heldAll, List.append_nil]
      rfl
    · rw [addressTypeTerms, hview]
      rfl
    · intro k hk
      rw [← reaches_single hreach k hk]
      omega

end

/-! ## Expressions -/

namespace Expression

mutual

/-- The expression with its slots numbered from `n` on. -/
def number (n : ℕ) : Expression → Expression
  | term t => term (t.number n)
  | call _ arguments => call n (numberAll (n + 1) arguments)

def numberAll (n : ℕ) : List Expression → List Expression
  | [] => []
  | expr :: exprs => number (n + 1) expr :: numberAll (n + 1) exprs

end

/-- The start of an expression is in use. -/
theorem exists_inUse_ge (n : ℕ) (e : Expression) : ∃ r ∈ inUse n e, n ≤ r := by
  cases e with
  | term t =>
    obtain ⟨r, hr, hle⟩ := Term.exists_inUse_ge n t
    exact ⟨r, hr, by omega⟩
  | call opAuxNo arguments => exact ⟨n, List.mem_cons_self, Nat.le_refl n⟩

mutual

/-- A slot that is written is one of the next slots, and it is in use or holds the result of a call without arguments,
or a check writes it. -/
theorem mem_assigned_number {n s : ℕ} : ∀ {e : Expression}, s ∈ assigned (number n e) →
    (n ≤ s ∧ ((∃ r ∈ inUse n e, s < r) ∨ s ∈ bareCalls n e)) ∨ Written (checks n e) s
  | term _, h => (Term.mem_assigned_number h).imp_left fun hs => ⟨hs.1, Or.inl hs.2⟩
  | call _ [], h => by
    rcases List.mem_cons.mp h with rfl | h
    · exact Or.inl ⟨Nat.le_refl _, Or.inr List.mem_cons_self⟩
    · cases h
  | call _ (e :: es), h => by
    rcases List.mem_cons.mp h with rfl | h
    · obtain ⟨r, hr, hle⟩ := exists_inUse_ge (s + 2) e
      exact Or.inl ⟨Nat.le_refl _, Or.inl ⟨r, List.mem_cons_of_mem _ (List.mem_append_left _ hr), by omega⟩⟩
    · rcases mem_assignedAll_numberAll h with ⟨hlt, ⟨r, hr, hreach⟩ | hmem⟩ | hs
      · exact Or.inl ⟨by omega, Or.inl ⟨r, List.mem_cons_of_mem _ hr, hreach⟩⟩
      · exact Or.inl ⟨by omega, Or.inr hmem⟩
      · exact Or.inr (written_keeping.mpr hs)

theorem mem_assignedAll_numberAll {n s : ℕ} : ∀ {es : List Expression}, s ∈ assignedAll (numberAll n es) →
    (n < s ∧ ((∃ r ∈ inUseAll n es, s < r) ∨ s ∈ bareCallsAll n es)) ∨ Written (checksAll n es) s
  | [], h => nomatch h
  | e :: es, h => by
    rw [checksAll, Term.written_append, written_keeping]
    rcases List.mem_append.mp h with h | h
    · rcases mem_assigned_number h with ⟨hlt, ⟨r, hr, hreach⟩ | hmem⟩ | hs
      · exact Or.inl ⟨hlt, Or.inl ⟨r, List.mem_append_left _ hr, hreach⟩⟩
      · exact Or.inl ⟨hlt, Or.inr (List.mem_append_left _ hmem)⟩
      · exact Or.inr (Or.inl hs)
    · rcases mem_assignedAll_numberAll h with ⟨hlt, ⟨r, hr, hreach⟩ | hmem⟩ | hs
      · exact Or.inl ⟨by omega, Or.inl ⟨r, List.mem_append_right _ hr, hreach⟩⟩
      · exact Or.inl ⟨by omega, Or.inr (List.mem_append_right _ hmem)⟩
      · exact Or.inr (Or.inr hs)

end

mutual

theorem assigned_of_checks {n s : ℕ} : ∀ {e : Expression}, Written (checks n e) s → s ∈ assigned (number n e)
  | term _, h => Term.assigned_of_checks h
  | call _ arguments, h => List.mem_cons_of_mem _ (assignedAll_of_checksAll (written_keeping.mp h))

theorem assignedAll_of_checksAll {n s : ℕ} : ∀ {es : List Expression}, Written (checksAll n es) s →
    s ∈ assignedAll (numberAll n es)
  | [], h => by
    obtain ⟨_, hcheck, -⟩ := h
    cases hcheck
  | e :: es, h => by
    rw [checksAll, Term.written_append, written_keeping] at h
    exact List.mem_append.mpr (h.imp assigned_of_checks assignedAll_of_checksAll)

end

theorem notMem_assignedAll_iff (h : s ≤ n) {es : List Expression} :
    s ∉ assignedAll (numberAll n es) ↔ ¬ Written (checksAll n es) s := by
  refine ⟨mt assignedAll_of_checksAll, fun hs hmem => ?_⟩
  rcases mem_assignedAll_numberAll hmem with ⟨hlt, -⟩ | hwritten
  · omega
  · exact hs hwritten

theorem own_number (n : ℕ) (e : Expression) : own (number n e) = (own e).map fun _ => n := by
  cases e with
  | term t =>
    cases t with
    | value | through | checked => rfl
  | call opAuxNo arguments => rfl

mutual

theorem safe_number_iff (n : ℕ) : ∀ e : Expression, Safe (number n e) ↔ ∀ check ∈ checks n e, Term.Fits check
  | term t => Term.safe_number_iff n t
  | call _ arguments => by
    rw [number, Safe, notMem_assignedAll_iff (Nat.le_succ n), safeAll_numberAll_iff (n + 1) arguments, checks,
      fits_keeping, List.forall_mem_singleton]

theorem safeAll_numberAll_iff (n : ℕ) : ∀ es : List Expression,
    SafeAll (numberAll n es) ↔ ∀ check ∈ checksAll n es, Term.Fits check
  | [] => ⟨fun _ => nofun, fun _ => trivial⟩
  | e :: es => by
    have hown : (∀ slot ∈ (own e).map fun _ => n + 1, slot ∉ assignedAll (numberAll (n + 1) es)) ↔
        ∀ slot ∈ (own e).map fun _ => n + 1, ¬ Written (checksAll (n + 1) es) slot := by
      refine forall₂_congr fun slot hslot => notMem_assignedAll_iff ?_
      obtain ⟨_, -, rfl⟩ := List.mem_map.mp hslot
      exact Nat.le_refl _
    rw [numberAll, SafeAll, safe_number_iff (n + 1) e, own_number, hown, safeAll_numberAll_iff (n + 1) es, checksAll,
      List.forall_mem_append, fits_keeping]

end

mutual

theorem mem_assigned_of_bareCalls {n s : ℕ} : ∀ {e : Expression}, s ∈ bareCalls n e →
    s ∈ assigned (number n e)
  | term _, h => nomatch h
  | call _ [], h => by
    rw [List.mem_singleton.mp h]
    exact List.mem_cons_self
  | call _ (e :: es), h => List.mem_cons_of_mem _ (mem_assignedAll_of_bareCallsAll h)

theorem mem_assignedAll_of_bareCallsAll {n s : ℕ} : ∀ {es : List Expression}, s ∈ bareCallsAll n es →
    s ∈ assignedAll (numberAll n es)
  | [], h => nomatch h
  | e :: es, h => by
    rcases List.mem_append.mp h with h | h
    · exact List.mem_append_left _ (mem_assigned_of_bareCalls h)
    · exact List.mem_append_right _ (mem_assignedAll_of_bareCallsAll h)

end

theorem first_mem_assigned {e : Expression} (h : s ∈ assigned e) :
    n ∈ assigned (number n e) ∨ ∃ s', Written (checks n e) s' := by
  cases e with
  | term t => exact Term.first_mem_assigned h
  | call opAuxNo arguments => exact Or.inl List.mem_cons_self

theorem assigned_number_eq_nil (n : ℕ) {e : Expression} (h : assigned e = []) : assigned (number n e) = [] := by
  cases e with
  | term t => exact Term.assigned_number_eq_nil n h
  | call opAuxNo arguments => cases h

end Expression

/-- The result of the pass over an expression. -/
def BuildsExpression (sanityCheck : Bool) (n : ℕ) (expr : Expression) (i : Instruction) : Prop :=
  ∃ i' depth, buildInstruction n i = some (i', depth) ∧ expression sanityCheck i' = some (expr.number n) ∧
    Reaches 0 depth (expr.inUse n)

/-- Operands are built as instructions too. -/
theorem buildInstruction_of_compute {fresh : ℕ} {i' : Instruction}
    (h : buildInstructionCompute n i = some (i', depth, fresh)) :
    buildInstruction n i = some (i', depth) ∧ n ≤ depth := by
  cases i with
  | value parseAs v opAuxNo =>
    cases h
    exact ⟨rfl, Nat.le_succ n⟩
  | compute op opAuxNo stack =>
    obtain ⟨⟨j, d⟩, hbuild, h⟩ := Option.bind_eq_some_iff.mp h
    cases h
    refine ⟨hbuild, ?_⟩
    unfold buildCompute at hbuild
    split at hbuild
    · cases hbuild
    · obtain ⟨⟨stack', maxStack, f⟩, -, h⟩ := Option.bind_eq_some_iff.mp hbuild
      cases h
      omega
  | load addressType src checks =>
    obtain ⟨⟨addressType', v0, f0⟩, htype, h⟩ := Option.bind_eq_some_iff.mp h
    obtain ⟨⟨src', v1, f1⟩, hsrc, h⟩ := Option.bind_eq_some_iff.mp h
    cases h
    refine ⟨?_, ?_⟩
    · rw [buildInstruction, htype]
      simp only [Option.bind_eq_bind, Option.bind_some, hsrc]
    · have hle : n ≤ v0 := by
        cases addressType with
        | var =>
          cases htype
          exact Nat.le_refl n
        | signal =>
          cases htype
          exact Nat.le_refl n
        | subcmpSignal cmpAddress =>
          obtain ⟨⟨cmpAddress', d, f⟩, -, htype⟩ := Option.bind_eq_some_iff.mp htype
          cases htype
          exact Nat.le_max_left n d
      omega
  | _ => cases h

/-- An operand is an expression. -/
theorem expression_eq_some {t : Term} (h : operand sanityCheck i = some t) :
    expression sanityCheck i = some (.term t) := by
  cases i with
  | value => rw [expression, h]; rfl
  | load => rw [expression, h]; rfl
  | compute => rw [expression, h]; rfl
  | _ => cases h

theorem builds_term {t : Term} (h : operand sanityCheck i = some t) : BuildsExpression sanityCheck n (.term t) i := by
  obtain ⟨i', depth, hbuild, hview, hreach⟩ := builds_operand n h
  obtain ⟨hinstr, hle⟩ := buildInstruction_of_compute hbuild
  exact ⟨i', depth, hinstr, expression_eq_some hview,
    hreach.all hle (Expression.exists_inUse_ge n (.term t))⟩

mutual

theorem builds_expression (n : ℕ) : ∀ {i : Instruction} {e : Expression}, expression sanityCheck i = some e →
    BuildsExpression sanityCheck n e i
  | .value .., _, h => by
    cases h
    exact builds_term rfl
  | .load .., _, h => by
    obtain ⟨t, ht, h⟩ := Option.bind_eq_some_iff.mp h
    cases h
    exact builds_term ht
  | .compute .., _, h => by
    obtain ⟨t, ht, h⟩ := Option.bind_eq_some_iff.mp h
    cases h
    exact builds_term ht
  | .call symbol arguments (.intermediate opAuxNo) [], _, h => by
    obtain ⟨es, hes, h⟩ := Option.bind_eq_some_iff.mp h
    cases h
    obtain ⟨arguments', d, hbuild, hview, hreach⟩ := builds_arguments (n + 1) hes
    refine ⟨.call symbol arguments' (.intermediate n) [], max n d, ?_, ?_, hreach.cons n⟩
    · rw [buildInstruction, hbuild]
      rfl
    · rw [expression, hview]
      rfl

theorem builds_arguments (n : ℕ) : ∀ {arguments : List Instruction} {es : List Expression},
    expressions sanityCheck arguments = some es →
    ∃ arguments' d, buildArguments n arguments = some (arguments', d) ∧
      expressions sanityCheck arguments' = some (Expression.numberAll n es) ∧ Reaches 0 d (Expression.inUseAll n es)
  | [], _, h => by
    cases h
    exact ⟨[], 0, rfl, rfl, reaches_nil 0⟩
  | i :: arguments, _, h => by
    obtain ⟨e, he, h⟩ := Option.bind_eq_some_iff.mp h
    obtain ⟨es, hes, h⟩ := Option.bind_eq_some_iff.mp h
    cases h
    obtain ⟨i', d, hbuild, hview, hreach⟩ := builds_expression (n + 1) he
    obtain ⟨arguments', d', hbuilds, hviews, hreaches⟩ := builds_arguments (n + 1) hes
    refine ⟨i' :: arguments', max d d', ?_, ?_, hreach.append_all hreaches⟩
    · rw [buildArguments, hbuild]
      simp only [Option.bind_eq_bind, Option.bind_some, hbuilds]
    · rw [expressions, hview, hviews]
      rfl

end

/-! ## Instructions -/

namespace Evaluation

/-- The evaluation with the slots of all of its expressions numbered. -/
def number (e : Evaluation) : Evaluation where
  expressions := e.expressions.map (Expression.number 0)
  arguments := Expression.numberAll 0 e.arguments
  output := e.output.map fun output => (output.1.number 0, output.2.number 0)
  source := e.source.map fun source => (source.1, source.2.map (Expression.number 0))
  output_mem := by
    intro o ho
    obtain ⟨output, houtput, rfl⟩ := Option.map_eq_some_iff.mp ho
    exact List.mem_map_of_mem (e.output_mem output houtput)
  source_subset := by
    intro s hs
    obtain ⟨source, hsource, rfl⟩ := Option.map_eq_some_iff.mp hs
    exact List.map_subset _ (e.source_subset source hsource)

end Evaluation

/-- The result of the pass over an instruction at the start of the array. -/
def BuildsEvaluation (sanityCheck : Bool) (e : Evaluation) (i : Instruction) : Prop :=
  ∃ i' depth, buildInstruction 0 i = some (i', depth) ∧ evaluation sanityCheck i' = some e.number ∧ Reaches 0 depth e.inUse

/-- An evaluation that consists of one expression. -/
theorem builds_evaluation_single (make : Instruction → Instruction)
    (hbuild : ∀ i' d, buildInstruction 0 i = some (i', d) → buildInstruction 0 (make i) = some (make i', d))
    (hview : ∀ i' expr', expression sanityCheck i' = some expr' → evaluation sanityCheck (make i') = some { expressions := [expr'] })
    (h : BuildsExpression sanityCheck 0 expr i) : BuildsEvaluation sanityCheck { expressions := [expr] } (make i) := by
  obtain ⟨i', d, hi, hexpr, hreach⟩ := h
  refine ⟨make i', d, hbuild i' d hi, hview i' _ hexpr, ?_⟩
  have hlevels : Evaluation.inUse { expressions := [expr] } = expr.inUse 0 := by
    show (expr.inUse 0 ++ []) ++ [] = expr.inUse 0
    rw [List.append_nil, List.append_nil]
  rwa [hlevels]

/-- The arguments of a log are evaluated one after the other. -/
theorem builds_log : ∀ {argsprint : List Instruction} {es : List Expression}, expressions sanityCheck argsprint = some es →
    ∃ argsprint' d, buildList 0 argsprint = some (argsprint', d) ∧
      expressions sanityCheck argsprint' = some (es.map (Expression.number 0)) ∧
      Reaches 0 d (es.flatMap (Expression.inUse 0))
  | [], _, h => by
    cases h
    exact ⟨[], 0, rfl, rfl, reaches_nil 0⟩
  | i :: argsprint, _, h => by
    obtain ⟨e, he, h⟩ := Option.bind_eq_some_iff.mp h
    obtain ⟨es, hes, h⟩ := Option.bind_eq_some_iff.mp h
    cases h
    obtain ⟨i', d, hbuild, hview, hreach⟩ := builds_expression 0 he
    obtain ⟨argsprint', d', hbuilds, hviews, hreaches⟩ := builds_log hes
    refine ⟨i' :: argsprint', max d d', ?_, ?_, hreach.append_all hreaches⟩
    · rw [buildList, hbuild]
      simp only [Option.bind_eq_bind, Option.bind_some, hbuilds]
    · rw [expressions, hview, hviews]
      rfl

/-- An address type or a location at the start of the array, as an expression. -/
theorem Reaches.through {d : ℕ} {ts : List Term} (h : Reaches 0 d (inUseAll 0 ts)) :
    Reaches 0 d ((Expression.term (.through ts)).inUse 0) :=
  h.start

theorem isOutputStore_of_build {d : ℕ} {xtype' : AddressType} (destIsOutput : Bool)
    (h : buildAddressType n xtype = some (xtype', d, f)) :
    isOutputStore destIsOutput xtype' = isOutputStore destIsOutput xtype := by
  cases xtype with
  | subcmpSignal cmpAddress =>
    obtain ⟨⟨cmpAddress', d, f⟩, -, h⟩ := Option.bind_eq_some_iff.mp h
    cases h
    rfl
  | _ =>
    cases h
    rfl

/-- The pass leaves the kind of a location. -/
theorem destination_of_build {d : ℕ} {dest' : LocationRule} (h : buildLocation n dest = some (dest', d, f))
    (ts cs : List Term) :
    (destination dest ts cs).map (Expression.number 0) = destination dest' (Term.numberAll 0 ts) cs := by
  cases dest with
  | indexed location =>
    obtain ⟨⟨location', d, f⟩, -, h⟩ := Option.bind_eq_some_iff.mp h
    cases h
    rfl
  | mapped signalCode indexes =>
    obtain ⟨⟨indexes', d, f⟩, -, h⟩ := Option.bind_eq_some_iff.mp h
    cases h
    rfl

theorem reaches_destination {d : ℕ} {ts : List Term} (h : Reaches 0 d (inUseAll 0 ts)) (dest : LocationRule)
    (cs : List Term) : Reaches 0 d ((destination dest ts cs).flatMap (Expression.inUse 0)) := by
  intro k hk
  rw [h k hk]
  cases dest with
  | indexed | mapped => simp [destination, Expression.inUse, inUse, inUseAll]

theorem number_storeEvaluation {d : ℕ} {dest' : LocationRule}
    (h : buildLocation n dest = some (dest', d, f)) (isOutput : Bool) (us : List Term) (srcAddress : Option Term)
    (ts cs : List Term) (expr : Expression) : (storeEvaluation isOutput us srcAddress dest ts cs expr).number =
      storeEvaluation isOutput (Term.numberAll 0 us) srcAddress dest' (Term.numberAll 0 ts) cs (expr.number 0) := by
  have hexpressions : (destination dest ts cs ++ [expr]).map (Expression.number 0) =
      destination dest' (Term.numberAll 0 ts) cs ++ [expr.number 0] := by
    rw [List.map_append, destination_of_build h]
    rfl
  simp only [Evaluation.number, storeEvaluation, List.map_cons, hexpressions, Option.map_map, Evaluation.mk.injEq]
  refine ⟨rfl, rfl, ?_, ?_⟩
  · cases isOutput with
    | true | false => rfl
  · cases srcAddress with
    | none => rfl
    | some term => exact congrArg (fun exprs => some (term, exprs)) hexpressions

theorem builds_store {destIsOutput : Bool} {srcAddressType : Option Instruction} {src : Instruction}
    {checks : List OutBoundsCheck} {srcAddress : Option Term} {ts : List Term}
    (htype : addressTypeTerms sanityCheck xtype = some us)
    (haddress : sourceAddress sanityCheck srcAddressType = some srcAddress)
    (hdest : locationTerms sanityCheck dest = some ts) (hchecks : checkTerms sanityCheck checks = some cs)
    (hsrc : expression sanityCheck src = some expr) :
    BuildsEvaluation sanityCheck (storeEvaluation (isOutputStore destIsOutput xtype) us srcAddress dest ts cs expr)
      (.store destIsOutput xtype srcAddressType dest src checks) := by
  obtain ⟨src', f0, hbuildSrc, hviewSrc, hreachSrc⟩ := builds_expression 0 hsrc
  obtain ⟨dest', f1, hbuildDest, hviewDest, hreachDest⟩ := builds_location 0 hdest
  obtain ⟨xtype', f2, hbuildType, hviewType, hreachType⟩ := builds_addressType 0 htype
  refine ⟨.store destIsOutput xtype' srcAddressType dest' src' checks, max (max f0 f1) f2, ?_, ?_, ?_⟩
  · rw [buildInstruction, hbuildSrc]
    simp only [Option.bind_eq_bind, Option.bind_some, hbuildDest, hbuildType]
  · rw [evaluation, hviewType, haddress, hviewDest, hchecks, hviewSrc, isOutputStore_of_build destIsOutput hbuildType,
      number_storeEvaluation hbuildDest]
    rfl
  · have hdepth : max (max f0 f1) f2 = max f2 (max f1 f0) := by omega
    have hlevels := hreachType.through.append_all ((reaches_destination hreachDest dest cs).append_all hreachSrc)
    rw [hdepth]
    simpa [Evaluation.inUse, storeEvaluation, Expression.inUseAll] using hlevels

theorem builds_final {symbol : String} {arguments : List Instruction} {checks : List OutBoundsCheck}
    {es : List Expression} {ts : List Term} (hchecks : checkTerms sanityCheck checks = some cs)
    (harguments : expressions sanityCheck arguments = some es) (htype : addressTypeTerms sanityCheck xtype = some us)
    (hdest : locationTerms sanityCheck dest = some ts) :
    BuildsEvaluation sanityCheck
      { expressions := [.term (.checked [] cs), .term (.through us), .term (.through ts)], arguments := es }
      (.call symbol arguments (.final xtype dest) checks) := by
  obtain ⟨xtype', v0, hbuildType, hviewType, hreachType⟩ := builds_addressType 0 htype
  obtain ⟨dest', v1, hbuildDest, hviewDest, hreachDest⟩ := builds_location 0 hdest
  obtain ⟨arguments', d, hbuild, hview, hreach⟩ := builds_arguments 0 harguments
  refine ⟨.call symbol arguments' (.final xtype' dest') checks, max (max v0 v1) d, ?_, ?_, ?_⟩
  · rw [buildInstruction, hbuildType]
    simp only [Option.bind_eq_bind, Option.bind_some, hbuildDest, hbuild]
  · rw [evaluation, hchecks, hview, hviewType, hviewDest]
    rfl
  · have hlevels := ((hreachType.through.append_all hreachDest.through).append_all hreach).start
    simpa [Evaluation.inUse, Expression.inUse, inUse, inUseAll] using hlevels

theorem evaluation_of_expression (h : expression sanityCheck i = some expr) :
    evaluation sanityCheck i = some { expressions := [expr] } := by
  cases i with
  | value | load | compute =>
    show (do let expr ← expression sanityCheck _; some ({ expressions := [expr] } : Evaluation)) = _
    rw [h]
    rfl
  | call symbol arguments returnInfo checks =>
    cases returnInfo with
    | intermediate opAuxNo =>
      show (do let expr ← expression sanityCheck _; some ({ expressions := [expr] } : Evaluation)) = _
      rw [h]
      rfl
    | final xtype dest => cases h
  | _ => cases h

theorem builds_evaluation_expression
    (h : (do let expr ← expression sanityCheck i; some { expressions := [expr] }) = some e) : BuildsEvaluation sanityCheck e i := by
  obtain ⟨expr, hexpr, h⟩ := Option.bind_eq_some_iff.mp h
  cases h
  exact builds_evaluation_single id (fun _ _ hi => hi) (fun _ _ => evaluation_of_expression)
    (builds_expression 0 hexpr)

theorem builds_evaluation (h : evaluation sanityCheck i = some e) : BuildsEvaluation sanityCheck e i := by
  cases i with
  | store destIsOutput xtype srcAddressType dest src checks =>
    obtain ⟨us, htype, h⟩ := Option.bind_eq_some_iff.mp h
    obtain ⟨srcAddress, haddress, h⟩ := Option.bind_eq_some_iff.mp h
    obtain ⟨ts, hdest, h⟩ := Option.bind_eq_some_iff.mp h
    obtain ⟨cs, hchecks, h⟩ := Option.bind_eq_some_iff.mp h
    obtain ⟨expr, hsrc, h⟩ := Option.bind_eq_some_iff.mp h
    cases h
    exact builds_store htype haddress hdest hchecks hsrc
  | call symbol arguments returnInfo checks =>
    cases returnInfo with
    | intermediate opAuxNo => exact builds_evaluation_expression h
    | final xtype dest =>
      obtain ⟨cs, hchecks, h⟩ := Option.bind_eq_some_iff.mp h
      obtain ⟨es, harguments, h⟩ := Option.bind_eq_some_iff.mp h
      obtain ⟨us, htype, h⟩ := Option.bind_eq_some_iff.mp h
      obtain ⟨ts, hdest, h⟩ := Option.bind_eq_some_iff.mp h
      cases h
      exact builds_final hchecks harguments htype hdest
  | ret value =>
    obtain ⟨expr, hexpr, h⟩ := Option.bind_eq_some_iff.mp h
    cases h
    refine builds_evaluation_single .ret ?_ ?_ (builds_expression 0 hexpr)
    · intro i' d hi
      rw [buildInstruction, hi]
      rfl
    · intro i' expr' hi
      rw [evaluation, hi]
      rfl
  | assert evaluate =>
    obtain ⟨expr, hexpr, h⟩ := Option.bind_eq_some_iff.mp h
    cases h
    refine builds_evaluation_single .assert ?_ ?_ (builds_expression 0 hexpr)
    · intro i' d hi
      rw [buildInstruction, hi]
      rfl
    · intro i' expr' hi
      rw [evaluation, hi]
      rfl
  | createCmp symbol subCmpId =>
    obtain ⟨expr, hexpr, h⟩ := Option.bind_eq_some_iff.mp h
    cases h
    refine builds_evaluation_single (.createCmp symbol) ?_ ?_ (builds_expression 0 hexpr)
    · intro i' d hi
      rw [buildInstruction, hi]
      rfl
    · intro i' expr' hi
      rw [evaluation, hi]
      rfl
  | log argsprint =>
    obtain ⟨es, hes, h⟩ := Option.bind_eq_some_iff.mp h
    cases h
    obtain ⟨argsprint', d, hbuild, hview, hreach⟩ := builds_log hes
    refine ⟨.log argsprint', d, ?_, ?_, ?_⟩
    · rw [buildInstruction, hbuild]
      rfl
    · rw [evaluation, hview]
      rfl
    · rwa [Evaluation.inUse, Expression.inUseAll, List.append_nil]
  | value | load | compute => exact builds_evaluation_expression h
  | branch | loop => cases h

/-! ## Branches and loops -/

theorem flatten_eq_self (h : evaluation sanityCheck i = some e) : flatten i = [i] := by
  cases i with
  | branch | loop => cases h
  | _ => rfl

/-- The result of the pass over instructions that are evaluated one after the other. -/
def BuildsAll (sanityCheck : Bool) (es : List Evaluation) (depth : ℕ) (built : List Instruction) : Prop :=
  built.mapM (evaluation sanityCheck) = some (es.map Evaluation.number) ∧ Reaches 0 depth (es.flatMap Evaluation.inUse)

theorem BuildsAll.append {es' : List Evaluation} {d d' : ℕ} {built built' : List Instruction}
    (h : BuildsAll sanityCheck es d built) (h' : BuildsAll sanityCheck es' d' built') :
    BuildsAll sanityCheck (es ++ es') (max d d') (built ++ built') := by
  refine ⟨?_, ?_⟩
  · rw [List.mapM_append, h.1, h'.1, List.map_append]
    rfl
  · rw [List.flatMap_append]
    exact h.2.append_all h'.2

theorem BuildsAll.single {d : ℕ} (h : evaluation sanityCheck i = some e.number)
    (hreach : Reaches 0 d e.inUse) : BuildsAll sanityCheck [e] d [i] := by
  refine ⟨?_, ?_⟩
  · rw [List.mapM_cons, h]
    rfl
  · rwa [List.flatMap_cons, List.flatMap_nil, List.append_nil]

/-- The evaluations of two lists. -/
theorem mapM_append_eq_some (is : List Instruction) {is' : List Instruction}
    (h : (is ++ is').mapM (evaluation sanityCheck) = some es) :
    ∃ es₁ es₂, is.mapM (evaluation sanityCheck) = some es₁ ∧ is'.mapM (evaluation sanityCheck) = some es₂ ∧ es = es₁ ++ es₂ := by
  rw [List.mapM_append] at h
  obtain ⟨es₁, h₁, h⟩ := Option.bind_eq_some_iff.mp h
  obtain ⟨es₂, h₂, h⟩ := Option.bind_eq_some_iff.mp h
  cases h
  exact ⟨es₁, es₂, h₁, h₂, rfl⟩

/-- A condition or another instruction that is not flattened. -/
theorem builds_condition (h : [i].mapM (evaluation sanityCheck) = some es) :
    ∃ i' d, buildInstruction 0 i = some (i', d) ∧ BuildsAll sanityCheck es d [i'] ∧ flatten i' = [i'] := by
  rw [List.mapM_cons, List.mapM_nil] at h
  obtain ⟨e, he, h⟩ := Option.bind_eq_some_iff.mp h
  cases h
  obtain ⟨i', d, hbuild, hview, hreach⟩ := builds_evaluation he
  exact ⟨i', d, hbuild, BuildsAll.single hview hreach, flatten_eq_self hview⟩

mutual

theorem builds_flatten : ∀ {i : Instruction} {es : List Evaluation}, (flatten i).mapM (evaluation sanityCheck) = some es →
    ∃ i' d, buildInstruction 0 i = some (i', d) ∧ BuildsAll sanityCheck es d (flatten i')
  | .branch cond ifBranch elseBranch, _, h => by
    obtain ⟨es, es', hcond, hbranches, rfl⟩ := mapM_append_eq_some [cond] h
    obtain ⟨es₁, es₂, hif, helse, rfl⟩ := mapM_append_eq_some (flattenList ifBranch) hbranches
    obtain ⟨cond', d, hbuild, hall, -⟩ := builds_condition hcond
    obtain ⟨ifBranch', d₁, hbuildIf, hallIf⟩ := builds_flattenList hif
    obtain ⟨elseBranch', d₂, hbuildElse, hallElse⟩ := builds_flattenList helse
    refine ⟨.branch cond' ifBranch' elseBranch', max d (max d₁ d₂), ?_, hall.append (hallIf.append hallElse)⟩
    rw [buildInstruction, hbuild]
    simp only [Option.bind_eq_bind, Option.bind_some, hbuildIf, hbuildElse]
  | .loop continueCondition body, _, h => by
    obtain ⟨es, es', hcond, hbody, rfl⟩ := mapM_append_eq_some [continueCondition] h
    obtain ⟨cond', d, hbuild, hall, -⟩ := builds_condition hcond
    obtain ⟨body', d', hbuildBody, hallBody⟩ := builds_flattenList hbody
    refine ⟨.loop cond' body', max d d', ?_, hall.append hallBody⟩
    rw [buildInstruction, hbuild]
    simp only [Option.bind_eq_bind, Option.bind_some, hbuildBody]
  | .value .., _, h | .load .., _, h | .store .., _, h | .compute .., _, h | .call .., _, h | .ret .., _, h
  | .assert .., _, h | .log .., _, h | .createCmp .., _, h => by
    obtain ⟨i', d, hbuild, hall, hflat⟩ := builds_condition h
    exact ⟨i', d, hbuild, hflat.symm ▸ hall⟩

theorem builds_flattenList : ∀ {code : List Instruction} {es : List Evaluation},
    (flattenList code).mapM (evaluation sanityCheck) = some es →
    ∃ code' d, buildList 0 code = some (code', d) ∧ BuildsAll sanityCheck es d (flattenList code')
  | [], _, h => by
    cases h
    exact ⟨[], 0, rfl, rfl, reaches_nil 0⟩
  | i :: code, _, h => by
    obtain ⟨es, es', hi, hcode, rfl⟩ := mapM_append_eq_some (flatten i) h
    obtain ⟨i', d, hbuild, hall⟩ := builds_flatten hi
    obtain ⟨code', d', hbuilds, halls⟩ := builds_flattenList hcode
    refine ⟨i' :: code', max d d', ?_, hall.append halls⟩
    rw [buildList, hbuild]
    simp only [Option.bind_eq_bind, Option.bind_some, hbuilds]

end

/-! ## Whole programs -/

namespace Evaluation

theorem mem_unnumbered_of_checks (h : Written e.allChecks s) : s ∈ e.unnumbered :=
  List.mem_append_right _ (List.mem_flatMap.mpr h)

theorem written_allChecks : Written e.allChecks s ↔
    (∃ expr ∈ e.expressions, Written (expr.checks 0) s) ∨ Written (Expression.checksAll 0 e.arguments) s := by
  rw [allChecks, Term.written_append]
  simp only [Written, List.mem_flatMap]
  grind

/-- An expression that writes slots writes the first one, like the slots that are not numbered. -/
theorem zero_mem_assigned (hslots : ∀ slot ∈ e.unnumbered, slot = 0) (hexpr : expr ∈ e.expressions)
    (h : expr.assigned ≠ []) : 0 ∈ (expr.number 0).assigned := by
  obtain ⟨slot, hslot⟩ := List.exists_mem_of_ne_nil _ h
  rcases expr.first_mem_assigned hslot with h | ⟨s, hs⟩
  · exact h
  · obtain rfl := hslots s (mem_unnumbered_of_checks (written_allChecks.mpr (Or.inl ⟨expr, hexpr, hs⟩)))
    exact Expression.assigned_of_checks hs

/-- Positions and sources both start at zero. -/
theorem output_iff (hslots : ∀ slot ∈ e.unnumbered, slot = 0) :
    (∀ output ∈ e.number.output, ∀ slot ∈ output.1.held, slot ∉ output.2.assigned) ↔
      ∀ output ∈ e.output, output.1.held = [] ∨ output.2.assigned = [] := by
  refine ⟨fun h output houtput => ?_, fun h output houtput => ?_⟩
  · by_contra hne
    obtain ⟨hheld, hassigned⟩ := not_or.mp hne
    have hzero : 0 ∈ (output.1.number 0).held := by
      rw [held_number, List.mem_range'_1]
      have := List.length_pos_of_ne_nil hheld
      omega
    have hnumber : (output.1.number 0, output.2.number 0) ∈ e.number.output :=
      Option.map_eq_some_iff.mpr ⟨output, houtput, rfl⟩
    exact h _ hnumber 0 hzero (zero_mem_assigned hslots (e.output_mem output houtput) hassigned)
  · obtain ⟨output, hsource, rfl⟩ := Option.map_eq_some_iff.mp houtput
    intro slot hheld hassigned
    rcases h output hsource with hnil | hnil
    · rw [held_number, hnil] at hheld
      cases hheld
    · rw [Expression.assigned_number_eq_nil 0 hnil] at hassigned
      cases hassigned

/-- The address of the component of a source has the first slot, and what is evaluated after it starts there. -/
theorem source_iff (hslots : ∀ slot ∈ e.unnumbered, slot = 0) :
    (∀ source ∈ e.number.source, source.1.Safe ∧ ∀ slot ∈ source.1.held, ∀ expr ∈ source.2, slot ∉ expr.assigned) ↔
      ∀ source ∈ e.source, source.1.Safe ∧ (source.1.held = [] ∨ ∀ expr ∈ source.2, expr.assigned = []) := by
  refine ⟨fun h source hsource => ?_, fun h source hsource => ?_⟩
  · obtain ⟨hsafe, hdisjoint⟩ := h _ (Option.map_eq_some_iff.mpr ⟨source, hsource, rfl⟩)
    refine ⟨hsafe, or_iff_not_imp_left.mpr fun hheld expr hexpr => ?_⟩
    by_contra hassigned
    obtain ⟨slot, hslot⟩ := List.exists_mem_of_ne_nil _ hheld
    obtain rfl := hslots slot (List.mem_append_left _ (List.mem_flatMap_of_mem (Option.mem_toList.mpr hsource)
      (assigned_of_held hslot)))
    exact hdisjoint 0 hslot _ (List.mem_map_of_mem hexpr)
      (zero_mem_assigned hslots (e.source_subset source hsource hexpr) hassigned)
  · obtain ⟨source, hmem, rfl⟩ := Option.map_eq_some_iff.mp hsource
    obtain ⟨hsafe, hnil⟩ := h source hmem
    refine ⟨hsafe, fun slot hslot expr' hexpr' hassigned => ?_⟩
    obtain ⟨expr, hexpr, rfl⟩ := List.mem_map.mp hexpr'
    rcases hnil with hnil | hnil
    · rw [hnil] at hslot
      cases hslot
    · rw [Expression.assigned_number_eq_nil 0 (hnil expr hexpr)] at hassigned
      cases hassigned

theorem safe_number_iff (parallel : Bool) (hslots : ∀ slot ∈ e.unnumbered, slot = 0) :
    e.number.Safe parallel ↔ (∀ check ∈ e.allChecks, Term.Fits check) ∧
      (∀ source ∈ e.source, source.1.Safe ∧ (source.1.held = [] ∨ ∀ expr ∈ source.2, expr.assigned = [])) ∧
      (parallel = true → ∀ output ∈ e.output, output.1.held = [] ∨ output.2.assigned = []) := by
  have hexpressions : (∀ expr ∈ e.number.expressions, expr.Safe) ↔
      ∀ check ∈ e.expressions.flatMap (Expression.checks 0), Term.Fits check := by
    rw [number, List.forall_mem_map, List.forall_mem_flatMap]
    exact forall₂_congr fun expr _ => expr.safe_number_iff 0
  have harguments : Expression.SafeAll e.number.arguments ↔
      ∀ check ∈ Expression.checksAll 0 e.arguments, Term.Fits check :=
    Expression.safeAll_numberAll_iff 0 e.arguments
  rw [allChecks, List.forall_mem_append, ← hexpressions, ← harguments, ← source_iff hslots, ← output_iff hslots]
  constructor
  · intro h
    exact ⟨⟨h.expressions, h.arguments⟩, h.source, h.output⟩
  · rintro ⟨⟨hexpressions, harguments⟩, hsource, houtput⟩
    exact ⟨hexpressions, harguments, hsource, houtput⟩

theorem mem_assigned_of_bareCalls (h : s ∈ e.bareCalls) : s ∈ e.number.assigned := by
  refine List.mem_append_left _ ?_
  rcases List.mem_append.mp h with h | h
  · obtain ⟨expr, hexpr, h⟩ := List.mem_flatMap.mp h
    exact List.mem_append_left _ (List.mem_flatMap_of_mem (List.mem_map_of_mem hexpr)
      (Expression.mem_assigned_of_bareCalls h))
  · exact List.mem_append_right _ (Expression.mem_assignedAll_of_bareCallsAll h)

end Evaluation

end Circom.IrProcessing.BuildStack
