import Circom.IrProcessing.ReduceStack

/-!
# Reduced instructions keep their values

An instruction that has a value is reduced to an instruction with the same value. The operations on addresses that
are carried out do not wrap, since otherwise the instruction would have failed.
-/

namespace Circom.IrProcessing

open Circom.IntermediateRepresentation

variable {stack : List Instruction} {values : List ℕ} {op : OperatorType} {v : ℕ}

theorem reduceOperands_eq_some {op0 op1 : Instruction} {operands : ℕ × ℕ}
    (h : reduceOperands op0 op1 = some operands) :
    op0 = .value .u32 operands.1 ∧ op1 = .value .u32 operands.2 := by
  unfold reduceOperands at h
  split at h
  · cases h
    exact ⟨rfl, rfl⟩
  · cases h

variable (m : Machine)

theorem eq_of_word {n : ℕ} (h : m.word n = some v) : n = v ∧ n < m.words := by
  unfold Machine.word at h
  by_cases hn : n < m.words
  · rw [if_pos hn] at h
    exact ⟨Option.some.inj h, hn⟩
  · rw [if_neg hn] at h
    cases h

theorem mod_eq_of_word {n : ℕ} (h : m.word n = some v) : n % 2 ^ 64 = v := by
  obtain ⟨rfl, hn⟩ := eq_of_word m h
  exact Nat.mod_eq_of_lt (Nat.lt_of_lt_of_le hn m.words_le)

/-! ## The value of an operation -/

theorem element_compute (h : m.element (.compute op stack) = some v) :
    op.isAddressOp = false ∧ ∃ values, m.elements stack = some values ∧ m.compute op values = some v := by
  unfold Machine.element at h
  cases hop : op.isAddressOp with
  | true =>
    rw [hop, if_pos rfl] at h
    cases h
  | false =>
    rw [hop, if_neg Bool.false_ne_true] at h
    exact ⟨rfl, Option.bind_eq_some_iff.mp h⟩

theorem element_compute_of (hop : op.isAddressOp = false) (h : m.elements stack = some values) :
    m.element (.compute op stack) = m.compute op values := by
  rw [Machine.element, hop, h]
  rfl

theorem address_toAddress (h : m.address (.compute .toAddress stack) = some v) :
    m.elements stack = some [v] ∧ m.word v = some v := by
  unfold Machine.address at h
  obtain ⟨values, hvalues, h⟩ := Option.bind_eq_some_iff.mp h
  split at h
  · obtain ⟨rfl, hn⟩ := eq_of_word m h
    exact ⟨hvalues, h⟩
  · cases h

theorem address_toAddress_of (h : m.elements stack = some [v]) : m.address (.compute .toAddress stack) = m.word v := by
  rw [Machine.address, h]
  rfl

theorem address_compute (hop : op ≠ .toAddress) (stack : List Instruction) :
    m.address (.compute op stack) = m.addresses stack >>= m.computeAddress op := by
  cases op with
  | toAddress => exact absurd rfl hop
  | _ => rfl

/-- The operations on words. -/
theorem computeAddress_eq_some (h : m.computeAddress op values = some v) :
    ∃ a b, values = [a, b] ∧ op ≠ .toAddress ∧ op.isAddressOp = true ∧
      usizeOperation op (a, b) = some v ∧ m.word v = some v := by
  unfold Machine.computeAddress at h
  split at h
  · rename_i a b
    refine ⟨a, b, rfl, (by simp), rfl, congrArg some (mod_eq_of_word m h), ?_⟩
    obtain ⟨rfl, -⟩ := eq_of_word m h
    exact h
  · rename_i a b
    refine ⟨a, b, rfl, (by simp), rfl, congrArg some (mod_eq_of_word m h), ?_⟩
    obtain ⟨rfl, -⟩ := eq_of_word m h
    exact h
  · cases h

/-- Two operands with addresses. -/
theorem addresses_pair {a b : ℕ} (h : m.addresses stack = some [a, b]) :
    ∃ op0 op1, stack = [op0, op1] ∧ m.address op0 = some a ∧ m.address op1 = some b := by
  have hcons : ∀ (i : Instruction) (rest : List Instruction) (w : ℕ) (ws : List ℕ),
      m.addresses (i :: rest) = some (w :: ws) → m.address i = some w ∧ m.addresses rest = some ws := by
    intro i rest w ws h
    obtain ⟨value, hvalue, h⟩ := Option.bind_eq_some_iff.mp h
    obtain ⟨values, hvalues, h⟩ := Option.bind_eq_some_iff.mp h
    cases h
    exact ⟨hvalue, hvalues⟩
  cases stack with
  | nil => cases h
  | cons op0 rest =>
    obtain ⟨h0, h⟩ := hcons op0 rest a [b] h
    cases rest with
    | nil => cases h
    | cons op1 rest =>
      obtain ⟨h1, h⟩ := hcons op1 rest b [] h
      cases rest with
      | nil => exact ⟨op0, op1, rfl, h0, h1⟩
      | cons op2 rest =>
        obtain ⟨value, -, h⟩ := Option.bind_eq_some_iff.mp h
        obtain ⟨values, -, h⟩ := Option.bind_eq_some_iff.mp h
        cases h

/-- An operation on words that can be carried out has the same value afterwards. -/
theorem reduceCompute_keeps (hstack : m.addresses stack = some values) (h : m.computeAddress op values = some v) :
    ∃ i, reduceCompute op stack = some i ∧ m.address i = some v := by
  obtain ⟨a, b, rfl, hne, hop, husize, hword⟩ := computeAddress_eq_some m h
  obtain ⟨op0, op1, rfl, h0, h1⟩ := addresses_pair m hstack
  unfold reduceCompute
  rw [hop, if_neg (by simp [hne])]
  cases hoperands : reduceOperands op0 op1 with
  | none =>
    refine ⟨.compute op [op0, op1], ?_, ?_⟩
    · dsimp only
      rw [hoperands]
    · rw [address_compute m hne, hstack]
      exact h
  | some operands =>
    obtain ⟨rfl, rfl⟩ := reduceOperands_eq_some hoperands
    obtain ⟨rfl, -⟩ := eq_of_word m h0
    obtain ⟨rfl, -⟩ := eq_of_word m h1
    refine ⟨.value .u32 v, ?_, hword⟩
    show (usizeOperation op operands >>= fun value => some (Instruction.value .u32 value)) = _
    rw [husize]
    rfl

/-! ## All instructions -/

/-- The results of a reduction have the values of what is reduced. -/
def Keeps {α β : Type} (value : α → Option β) (x : α) (reduced : Option α) : Prop :=
  ∀ v, value x = some v → ∃ y, reduced = some y ∧ value y = some v

theorem Keeps.of_none {α β : Type} {value : α → Option β} {x : α} {reduced : Option α}
    (h : value x = none) : Keeps value x reduced := by
  intro v hv
  rw [h] at hv
  cases hv

mutual

theorem reduceInstruction_keeps : ∀ i : Instruction,
    Keeps m.element i (reduceInstruction i) ∧ Keeps m.address i (reduceInstruction i)
  | .value parseAs value => ⟨fun v hv => ⟨_, rfl, hv⟩, fun v hv => ⟨_, rfl, hv⟩⟩
  | .load addressType src context => by
    refine ⟨?_, .of_none rfl⟩
    intro v hv
    obtain ⟨region, hregion, hv⟩ := Option.bind_eq_some_iff.mp hv
    obtain ⟨position, hposition, hv⟩ := Option.bind_eq_some_iff.mp hv
    obtain ⟨addressType', htype, hregion'⟩ := reduceAddressType_keeps addressType region hregion
    obtain ⟨src', hsrc, hposition'⟩ := reduceLocationRule_keeps src position hposition
    refine ⟨.load addressType' src' context, ?_, ?_⟩
    · rw [reduceInstruction, htype, hsrc]
      rfl
    · rw [Machine.element, hregion', hposition']
      exact hv
  | .compute op stack => by
    refine ⟨fun v hv => ?_, fun v hv => ?_⟩
    · obtain ⟨hop, values, hvalues, hv⟩ := element_compute m hv
      obtain ⟨stack', hstack, hvalues'⟩ := (reduceList_keeps stack).1 values hvalues
      refine ⟨.compute op stack', ?_, ?_⟩
      · rw [reduceInstruction, hstack]
        exact if_pos (by simp [hop])
      · rw [element_compute_of m hop hvalues']
        exact hv
    · by_cases hop : op = .toAddress
      · subst hop
        obtain ⟨hvalues, hword⟩ := address_toAddress m hv
        obtain ⟨stack', hstack, hvalues'⟩ := (reduceList_keeps stack).1 [v] hvalues
        refine ⟨.compute .toAddress stack', ?_, ?_⟩
        · rw [reduceInstruction, hstack]
          rfl
        · rw [address_toAddress_of m hvalues']
          exact hword
      · rw [address_compute m hop] at hv
        obtain ⟨values, hvalues, hv⟩ := Option.bind_eq_some_iff.mp hv
        obtain ⟨stack', hstack, hvalues'⟩ := (reduceList_keeps stack).2 values hvalues
        rw [reduceInstruction, hstack]
        exact reduceCompute_keeps m hvalues' hv
  | .store .. => ⟨.of_none rfl, .of_none rfl⟩
  | .call .. => ⟨.of_none rfl, .of_none rfl⟩
  | .branch .. => ⟨.of_none rfl, .of_none rfl⟩
  | .ret .. => ⟨.of_none rfl, .of_none rfl⟩
  | .assert .. => ⟨.of_none rfl, .of_none rfl⟩
  | .log .. => ⟨.of_none rfl, .of_none rfl⟩
  | .loop .. => ⟨.of_none rfl, .of_none rfl⟩
  | .createCmp .. => ⟨.of_none rfl, .of_none rfl⟩

theorem reduceList_keeps : ∀ list : List Instruction,
    Keeps m.elements list (reduceList list) ∧ Keeps m.addresses list (reduceList list)
  | [] => ⟨fun v hv => ⟨_, rfl, hv⟩, fun v hv => ⟨_, rfl, hv⟩⟩
  | instr :: list => by
    refine ⟨fun v hv => ?_, fun v hv => ?_⟩
    · obtain ⟨value, hvalue, hv⟩ := Option.bind_eq_some_iff.mp hv
      obtain ⟨values, hvalues, hv⟩ := Option.bind_eq_some_iff.mp hv
      obtain ⟨instr', hinstr, hvalue'⟩ := (reduceInstruction_keeps instr).1 value hvalue
      obtain ⟨list', hlist, hvalues'⟩ := (reduceList_keeps list).1 values hvalues
      refine ⟨instr' :: list', ?_, ?_⟩
      · rw [reduceList, hinstr, hlist]
        rfl
      · rw [Machine.elements, hvalue', hvalues']
        exact hv
    · obtain ⟨value, hvalue, hv⟩ := Option.bind_eq_some_iff.mp hv
      obtain ⟨values, hvalues, hv⟩ := Option.bind_eq_some_iff.mp hv
      obtain ⟨instr', hinstr, hvalue'⟩ := (reduceInstruction_keeps instr).2 value hvalue
      obtain ⟨list', hlist, hvalues'⟩ := (reduceList_keeps list).2 values hvalues
      refine ⟨instr' :: list', ?_, ?_⟩
      · rw [reduceList, hinstr, hlist]
        rfl
      · rw [Machine.addresses, hvalue', hvalues']
        exact hv

theorem reduceAddressType_keeps : ∀ at' : AddressType, Keeps m.region at' (reduceAddressType at')
  | .var => fun v hv => ⟨_, rfl, hv⟩
  | .signal => fun v hv => ⟨_, rfl, hv⟩
  | .subcmpSignal cmpAddress isOutput inputInformation isAnonymous cmpName => by
    intro v hv
    obtain ⟨value, hvalue, hv⟩ := Option.bind_eq_some_iff.mp hv
    obtain ⟨cmpAddress', hcmp, hvalue'⟩ := (reduceInstruction_keeps cmpAddress).2 value hvalue
    refine ⟨.subcmpSignal cmpAddress' isOutput inputInformation isAnonymous cmpName, ?_, ?_⟩
    · rw [reduceAddressType, hcmp]
      rfl
    · rw [Machine.region, hvalue']
      exact hv

theorem reduceLocationRule_keeps : ∀ lc : LocationRule, Keeps m.position lc (reduceLocationRule lc)
  | .indexed location templateHeader => by
    intro v hv
    obtain ⟨value, hvalue, hv⟩ := Option.bind_eq_some_iff.mp hv
    obtain ⟨location', hlocation, hvalue'⟩ := (reduceInstruction_keeps location).2 value hvalue
    refine ⟨.indexed location' templateHeader, ?_, ?_⟩
    · rw [reduceLocationRule, hlocation]
      rfl
    · rw [Machine.position, hvalue']
      exact hv
  | .mapped signalCode indexes => by
    intro v hv
    obtain ⟨accesses, haccesses, hv⟩ := Option.bind_eq_some_iff.mp hv
    obtain ⟨indexes', hindexes, haccesses'⟩ := reduceAccesses_keeps indexes accesses haccesses
    refine ⟨.mapped signalCode indexes', ?_, ?_⟩
    · rw [reduceLocationRule, hindexes]
      rfl
    · rw [Machine.position, haccesses']
      exact hv

theorem reduceAccess_keeps : ∀ acc : AccessType, Keeps m.mappedAccess acc (reduceAccess acc)
  | .indexed indexes symbolDim => by
    intro v hv
    obtain ⟨values, hvalues, hv⟩ := Option.bind_eq_some_iff.mp hv
    obtain ⟨indexes', hindexes, hvalues'⟩ := (reduceList_keeps indexes).2 values hvalues
    refine ⟨.indexed indexes' symbolDim, ?_, ?_⟩
    · rw [reduceAccess, hindexes]
      rfl
    · rw [Machine.mappedAccess, hvalues']
      exact hv
  | .qualified fieldNo => fun v hv => ⟨_, rfl, hv⟩

theorem reduceAccesses_keeps : ∀ accesses : List AccessType,
    Keeps m.mappedAccesses accesses (reduceAccesses accesses)
  | [] => fun v hv => ⟨_, rfl, hv⟩
  | acc :: accesses => by
    intro v hv
    obtain ⟨first, hfirst, hv⟩ := Option.bind_eq_some_iff.mp hv
    obtain ⟨rest, hrest, hv⟩ := Option.bind_eq_some_iff.mp hv
    obtain ⟨acc', hacc, hfirst'⟩ := reduceAccess_keeps acc first hfirst
    obtain ⟨accesses', haccesses, hrest'⟩ := reduceAccesses_keeps accesses rest hrest
    refine ⟨acc' :: accesses', ?_, ?_⟩
    · rw [reduceAccesses, hacc, haccesses]
      rfl
    · rw [Machine.mappedAccesses, hfirst', hrest']
      exact hv

end

end Circom.IrProcessing
