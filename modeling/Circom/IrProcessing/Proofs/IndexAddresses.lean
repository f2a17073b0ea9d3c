import Circom.IrProcessing.Proofs.ReduceStack
import Mathlib.Data.List.Forall2

/-!
# Indices computed with machine words

An index that is converted is computed without the field: its loads become words, and its sums and products are
those of the natural numbers. The result is the index if and only if all of them fit and the result is smaller
than the prime.
-/

namespace Circom.IrProcessing

open Circom.IntermediateRepresentation

/-! ## Indices as natural numbers -/

mutual

/-- The value of an index with the additions and multiplications of the natural numbers. -/
def natural (m : Machine) : Instruction → ℕ
  | .value .bigInt value => m.constants value
  | .compute .add stack => (naturals m stack).sum
  | .compute .mul stack => (naturals m stack).prod
  | i => (m.element i).getD 0

def naturals (m : Machine) : List Instruction → List ℕ
  | [] => []
  | i :: stack => natural m i :: naturals m stack

end

mutual

/-- The index, its operands and the operands of those that are sums and products. -/
def indexParts : Instruction → List Instruction
  | .compute .add stack => .compute .add stack :: stackParts stack
  | .compute .mul stack => .compute .mul stack :: stackParts stack
  | i => [i]

def stackParts : List Instruction → List Instruction
  | [] => []
  | i :: stack => indexParts i ++ stackParts stack

end

variable (m : Machine)

/-- The index and all its parts are words. -/
def WordsFit (i : Instruction) : Prop := ∀ part ∈ indexParts i, natural m part < m.words

/-- The instruction is the address of the index: it has the value of the index in the field if everything fits,
and fails otherwise. -/
def IsAddressOf (i a : Instruction) : Prop :=
  ∀ v, m.element i = some v → natural m i % m.prime = v ∧
    (WordsFit m i → m.address a = some (natural m i)) ∧ (¬ WordsFit m i → m.address a = none)

variable {m}

theorem word_of_lt {n : ℕ} (h : n < m.words) : m.word n = some n := if_pos h

theorem word_of_not_lt {n : ℕ} (h : ¬ n < m.words) : m.word n = none := if_neg h

/-- An index without other parts. -/
theorem isAddressOf_of_word {i a : Instruction} (hparts : indexParts i = [i])
    (hvalue : ∀ v, m.element i = some v → natural m i % m.prime = v ∧ m.address a = m.word (natural m i)) :
    IsAddressOf m i a := by
  intro v hv
  obtain ⟨hmod, haddress⟩ := hvalue v hv
  have hfits : WordsFit m i ↔ natural m i < m.words := by
    unfold WordsFit
    rw [hparts, List.forall_mem_singleton]
  rw [haddress, hfits]
  exact ⟨hmod, word_of_lt, word_of_not_lt⟩

theorem checkIfPossibleToUsizeMultiple_fst (constants : ℕ → ℕ) :
    ∀ (indexing : List Instruction) (isUsize : Bool) (numberNonSmall : ℕ),
      (checkIfPossibleToUsizeMultiple constants isUsize numberNonSmall indexing).1 = true →
        isUsize = true ∧ ∀ i ∈ indexing, (checkIfPossibleToUsizeSingle constants i).1 = true
  | [], isUsize, _, h => ⟨h, fun i hi => absurd hi List.not_mem_nil⟩
  | i :: indexing, isUsize, numberNonSmall, h => by
    obtain ⟨hand, htail⟩ := checkIfPossibleToUsizeMultiple_fst constants indexing _ _ h
    obtain ⟨hisUsize, hi⟩ := Bool.and_eq_true_iff.mp hand
    exact ⟨hisUsize, List.forall_mem_cons.mpr ⟨hi, htail⟩⟩

/-- The operands of a sum or of a product of two indices. -/
theorem elements_pair {stack : List Instruction} {a b : ℕ} (h : m.elements stack = some [a, b]) :
    ∃ i j, stack = [i, j] ∧ m.element i = some a ∧ m.element j = some b := by
  match stack, h with
  | [i], h =>
    obtain ⟨value, -, h⟩ := Option.bind_eq_some_iff.mp h
    cases h
  | [i, j], h =>
    obtain ⟨value, hvalue, h⟩ := Option.bind_eq_some_iff.mp h
    obtain ⟨values, hvalues, h⟩ := Option.bind_eq_some_iff.mp h
    obtain ⟨value', hvalue', hvalues⟩ := Option.bind_eq_some_iff.mp hvalues
    cases hvalues
    cases h
    exact ⟨i, j, rfl, hvalue, hvalue'⟩
  | i :: j :: k :: stack, h =>
    obtain ⟨value, -, h⟩ := Option.bind_eq_some_iff.mp h
    obtain ⟨values, hvalues, h⟩ := Option.bind_eq_some_iff.mp h
    obtain ⟨value', -, hvalues⟩ := Option.bind_eq_some_iff.mp hvalues
    obtain ⟨values', hvalues', hvalues⟩ := Option.bind_eq_some_iff.mp hvalues
    obtain ⟨value'', -, hvalues'⟩ := Option.bind_eq_some_iff.mp hvalues'
    obtain ⟨values'', -, hvalues'⟩ := Option.bind_eq_some_iff.mp hvalues'
    cases hvalues'
    cases hvalues
    cases h

/-- The address of an operation on two indices. -/
theorem isAddressOf_operation {op addressOp : OperatorType} {stack stack' : List Instruction} {f : ℕ → ℕ → ℕ}
    (hop : ∀ values v, m.compute op values = some v → ∃ a b, values = [a, b] ∧ v = f a b % m.prime)
    (hmod : ∀ a b, f (a % m.prime) (b % m.prime) % m.prime = f a b % m.prime)
    (haddressOp : ∀ a b, m.computeAddress addressOp [a, b] = m.word (f a b)) (hne : addressOp ≠ .toAddress)
    (hparts : indexParts (.compute op stack) = .compute op stack :: stackParts stack)
    (hnatural : ∀ i j, stack = [i, j] → natural m (.compute op stack) = f (natural m i) (natural m j))
    (h : List.Forall₂ (IsAddressOf m) stack stack') :
    IsAddressOf m (.compute op stack) (.compute addressOp stack') := by
  intro v hv
  obtain ⟨-, values, hvalues, hv⟩ := element_compute m hv
  obtain ⟨a, b, rfl, rfl⟩ := hop values v hv
  obtain ⟨i, j, rfl, hi, hj⟩ := elements_pair hvalues
  rw [hnatural i j rfl]
  cases h with
  | cons hleft h =>
    cases h with
    | cons hright h =>
      cases h
      rename_i i' j'
      obtain ⟨rfl, hifits, hinot⟩ := hleft a hi
      obtain ⟨rfl, hjfits, hjnot⟩ := hright b hj
      have haddress : m.address (.compute addressOp [i', j']) =
          m.address i' >>= fun x => m.address j' >>= fun y => m.word (f x y) := by
        rw [address_compute m hne]
        simp only [Machine.addresses]
        cases m.address i' with
        | none => rfl
        | some x =>
          cases m.address j' with
          | none => rfl
          | some y => exact haddressOp x y
      have hfits : WordsFit m (.compute op [i, j]) ↔
          f (natural m i) (natural m j) < m.words ∧ WordsFit m i ∧ WordsFit m j := by
        unfold WordsFit
        rw [hparts, List.forall_mem_cons, hnatural i j rfl]
        refine and_congr_right fun _ => ?_
        show (∀ part ∈ indexParts i ++ (indexParts j ++ []), natural m part < m.words) ↔ _
        rw [List.append_nil, List.forall_mem_append]
      rw [haddress, hfits]
      refine ⟨(hmod _ _).symm, fun ⟨hword, hleft, hright⟩ => ?_, fun hnot => ?_⟩
      · rw [hifits hleft, hjfits hright]
        exact word_of_lt hword
      · by_cases hleft : WordsFit m i
        · by_cases hright : WordsFit m j
          · rw [hifits hleft, hjfits hright]
            exact word_of_not_lt fun hword => hnot ⟨hword, hleft, hright⟩
          · rw [hifits hleft, hjnot hright]
            rfl
        · rw [hinot hleft]
          rfl

mutual

/-- A possible conversion gives the address of the index. -/
theorem convertToUsizeSingle_spec : ∀ i : Instruction,
    (checkIfPossibleToUsizeSingle m.constants i).1 = true →
      ∃ a, convertToUsizeSingle m.constants i = some a ∧ IsAddressOf m i a
  | .value .u32 value, _ => ⟨.value .u32 value, rfl, fun v hv => (by cases hv)⟩
  | .value .bigInt value, h => by
    unfold checkIfPossibleToUsizeSingle at h
    unfold convertToUsizeSingle
    by_cases hvalue : m.constants value < 2 ^ 64
    · rw [if_pos hvalue]
      refine ⟨_, rfl, isAddressOf_of_word rfl fun v hv => ?_⟩
      cases hv
      exact ⟨rfl, rfl⟩
    · rw [if_neg hvalue] at h
      cases h
  | .compute .add stack, h => by
    obtain ⟨-, hall⟩ := checkIfPossibleToUsizeMultiple_fst m.constants stack true 0 h
    obtain ⟨stack', hstack, hspec⟩ := convertToUsizeMultiple_spec stack hall
    refine ⟨.compute .addAddress stack', ?_, ?_⟩
    · rw [convertToUsizeSingle, hstack]
      rfl
    · refine isAddressOf_operation (f := (· + ·)) ?_ (fun a b => (Nat.add_mod a b m.prime).symm)
        (fun _ _ => rfl) (by simp) rfl ?_ hspec
      · intro values v hv
        match values, hv with
        | [a, b], hv => exact ⟨a, b, rfl, (Option.some.inj hv).symm⟩
      · rintro i j rfl
        exact congrArg (natural m i + ·) (Nat.add_zero _)
  | .compute .mul stack, h => by
    obtain ⟨hmultiple, -⟩ := Bool.and_eq_true_iff.mp h
    obtain ⟨-, hall⟩ := checkIfPossibleToUsizeMultiple_fst m.constants stack true 0 hmultiple
    obtain ⟨stack', hstack, hspec⟩ := convertToUsizeMultiple_spec stack hall
    refine ⟨.compute .mulAddress stack', ?_, ?_⟩
    · rw [convertToUsizeSingle, hstack]
      rfl
    · refine isAddressOf_operation (f := (· * ·)) ?_ (fun a b => (Nat.mul_mod a b m.prime).symm)
        (fun _ _ => rfl) (by simp) rfl ?_ hspec
      · intro values v hv
        match values, hv with
        | [a, b], hv => exact ⟨a, b, rfl, (Option.some.inj hv).symm⟩
      · rintro i j rfl
        exact congrArg (natural m i * ·) (Nat.mul_one _)
  | .load addressType src context, _ => by
    refine ⟨.compute .toAddress [.load addressType src context], rfl, isAddressOf_of_word rfl fun v hv => ?_⟩
    have hnatural : natural m (.load addressType src context) = v := by
      show (m.element (.load addressType src context)).getD 0 = v
      rw [hv]
      rfl
    have helements : m.elements [.load addressType src context] = some [v] := by
      rw [Machine.elements, hv]
      rfl
    rw [hnatural, address_toAddress_of m helements]
    obtain ⟨region, -, hv⟩ := Option.bind_eq_some_iff.mp hv
    obtain ⟨position, -, hv⟩ := Option.bind_eq_some_iff.mp hv
    exact ⟨Nat.mod_eq_of_lt (m.memory_lt _ v hv), rfl⟩
  | .store .., _ => ⟨_, rfl, fun v hv => (by cases hv)⟩
  | .call .., _ => ⟨_, rfl, fun v hv => (by cases hv)⟩
  | .branch .., _ => ⟨_, rfl, fun v hv => (by cases hv)⟩
  | .ret .., _ => ⟨_, rfl, fun v hv => (by cases hv)⟩
  | .assert .., _ => ⟨_, rfl, fun v hv => (by cases hv)⟩
  | .log .., _ => ⟨_, rfl, fun v hv => (by cases hv)⟩
  | .loop .., _ => ⟨_, rfl, fun v hv => (by cases hv)⟩
  | .createCmp .., _ => ⟨_, rfl, fun v hv => (by cases hv)⟩

theorem convertToUsizeMultiple_spec : ∀ indexing : List Instruction,
    (∀ i ∈ indexing, (checkIfPossibleToUsizeSingle m.constants i).1 = true) →
      ∃ stack, convertToUsizeMultiple m.constants indexing = some stack ∧
        List.Forall₂ (IsAddressOf m) indexing stack
  | [], _ => ⟨[], rfl, .nil⟩
  | i :: indexing, h => by
    obtain ⟨hi, hindexing⟩ := List.forall_mem_cons.mp h
    obtain ⟨a, ha, hspec⟩ := convertToUsizeSingle_spec i hi
    obtain ⟨stack, hstack, hall⟩ := convertToUsizeMultiple_spec indexing hindexing
    refine ⟨a :: stack, ?_, .cons hspec hall⟩
    rw [convertToUsizeMultiple, ha, hstack]
    rfl

end

variable (m)

/-- The address of an index is the value of the index, before and after it is reduced. -/
def Agrees (a : Instruction) (v : ℕ) : Prop :=
  m.address a = some v ∧ ∃ reduced, reduceInstruction a = some reduced ∧ m.address reduced = some v

theorem agrees_iff {a : Instruction} {v : ℕ} : Agrees m a v ↔ m.address a = some v :=
  ⟨fun h => h.1, fun h => ⟨h, (reduceInstruction_keeps m a).2 v h⟩⟩

/-- The indices that agree: those that are not converted, and those whose parts are words and that are smaller than
the prime, with the operations of the natural numbers. -/
def IndexFits (i : Instruction) : Prop :=
  (checkIfPossibleToUsizeSingle m.constants i).1 = true → WordsFit m i ∧ natural m i < m.prime

theorem indexingInstruction_spec (i : Instruction) : ∃ a, indexingInstruction m.constants i = some a ∧
    ∀ v, m.element i = some v → v < m.words → (Agrees m a v ↔ IndexFits m i) := by
  unfold indexingInstruction
  by_cases hpossible : (checkIfPossibleToUsizeSingle m.constants i).1 = true
  · rw [if_pos hpossible]
    obtain ⟨a, ha, hspec⟩ := convertToUsizeSingle_spec i hpossible
    refine ⟨a, ha, fun v hv _ => ?_⟩
    obtain ⟨rfl, hfits, hnot⟩ := hspec v hv
    rw [agrees_iff]
    constructor
    · intro haddress _
      by_cases hfit : WordsFit m i
      · rw [hfits hfit] at haddress
        refine ⟨hfit, ?_⟩
        rw [Option.some.inj haddress]
        exact Nat.mod_lt _ m.prime_pos
      · rw [hnot hfit] at haddress
        cases haddress
    · intro h
      obtain ⟨hfit, hlt⟩ := h hpossible
      rw [hfits hfit, Nat.mod_eq_of_lt hlt]
  · rw [if_neg hpossible]
    refine ⟨_, rfl, fun v hv hlt => ?_⟩
    have helements : m.elements [i] = some [v] := by
      rw [Machine.elements, hv]
      rfl
    rw [agrees_iff, address_toAddress_of m helements]
    exact iff_of_true (word_of_lt hlt) fun h => absurd h hpossible

/-- The addresses that indices are turned into, with the condition under which one agrees with its index when the
index is smaller than a dimension. -/
theorem index_agrees_iff (m : Machine) (indexing : List Instruction) :
    ∃ addresses, indexingInstructionsFilter m.constants indexing = some addresses ∧
      List.Forall₂ (fun i a => ∀ v dimension, m.element i = some v → v < dimension → dimension ≤ m.words →
        (Agrees m a v ↔ IndexFits m i)) indexing addresses := by
  unfold indexingInstructionsFilter
  induction indexing with
  | nil => exact ⟨[], rfl, .nil⟩
  | cons i indexing ih =>
    obtain ⟨a, ha, hspec⟩ := indexingInstruction_spec m i
    obtain ⟨addresses, haddresses, hall⟩ := ih
    refine ⟨a :: addresses, ?_, .cons (fun v dimension hv hlt hle => hspec v hv (Nat.lt_of_lt_of_le hlt hle)) hall⟩
    rw [List.mapM_cons, ha, haddresses]
    rfl

/-! ## A sum of two variables -/

/-- The prime of the curve bn128. -/
def bn128 : ℕ := 21888242871839275222246405745257275088548364400416034343698204186575808495617

/-- A machine with machine words of 64 bits, in whose memory all elements are `value`. -/
def uniform (value : ℕ) (h : value < bn128) : Machine where
  prime := bn128
  words := 2 ^ 64
  constants := id
  memory := fun _ => some value
  operation := fun _ _ => none
  prime_pos := by decide
  memory_lt := by
    intro place found hfound
    cases hfound
    exact h
  words_le := Nat.le_refl _

def variableAt (place : ℕ) : Instruction := .load .var (.indexed (.value .u32 place) none) (.single 1)

/-- `x + y` for variables `x` and `y`. -/
def sumOfVariables : Instruction := .compute .add [variableAt 0, variableAt 1]

/-- `1 + 1` as the index of an array of three elements. -/
theorem index_agrees_iff_sum :
    ∃ a, indexingInstruction id sumOfVariables = some a ∧ Agrees (uniform 1 (by decide)) a 2 := by
  obtain ⟨addresses, haddresses, hall⟩ := index_agrees_iff (uniform 1 (by decide)) [sumOfVariables]
  obtain ⟨a, rest, hspec, htail, rfl⟩ := List.forall₂_cons_left_iff.mp hall
  obtain rfl := List.forall₂_nil_left_iff.mp htail
  have hfits : IndexFits (uniform 1 (by decide)) sumOfVariables := by
    refine fun _ => ⟨?_, by decide⟩
    show ∀ part ∈ [sumOfVariables, variableAt 0, variableAt 1], natural _ part < _
    decide
  refine ⟨a, ?_, (hspec 2 3 rfl (by decide) (by decide)).mpr hfits⟩
  rw [indexingInstructionsFilter, List.mapM_cons] at haddresses
  obtain ⟨a', ha', h⟩ := Option.bind_eq_some_iff.mp haddresses
  cases h
  exact ha'

/-- The index `x + y` is 1 in the field when both are the half of one, and its address fails. -/
theorem not_index_agrees :
    ¬ ∀ (m : Machine) (i a : Instruction) (v dimension : ℕ), indexingInstruction m.constants i = some a →
      m.element i = some v → v < dimension → dimension ≤ m.words → Agrees m a v := by
  intro h
  have hagrees := h (uniform ((bn128 + 1) / 2) (by decide)) sumOfVariables
    (.compute .addAddress [.compute .toAddress [variableAt 0], .compute .toAddress [variableAt 1]]) 1 2 rfl rfl
    (by decide) (by decide)
  have hnone : (uniform ((bn128 + 1) / 2) (by decide)).address
      (.compute .addAddress [.compute .toAddress [variableAt 0], .compute .toAddress [variableAt 1]]) = none := rfl
  rw [agrees_iff, hnone] at hagrees
  cases hagrees

end Circom.IrProcessing
