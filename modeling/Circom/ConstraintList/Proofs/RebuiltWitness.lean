import Circom.ConstraintList.ConstraintSimplification

/-!
# The rebuilt witness

`rebuild_witness` closes the gaps that deleted signals leave: the signals that stay move down in order, and
`get_witness_as_vec` lists them.
-/

namespace Circom.ConstraintList

open Circom.Lib (HashOrder foldlM_invariant)

variable {signals : List ℕ} {rebuilt : Rebuilt} {signalMap : SignalMap} {n : ℕ} {P : ℕ → Bool}

section Rebuild

variable {forbidden : Finset ℕ} {nonLinearMap : SignalToConstraints} {removeUnused : Bool}
  {deleted : Finset ℕ}

/-- The signal is not deleted, and it is in use or must not be removed. -/
def Stays (deleted forbidden : Finset ℕ) (nonLinearMap : SignalToConstraints) (removeUnused : Bool)
    (signal : ℕ) : Bool :=
  signal ∉ deleted && !(removeUnused && signal ∉ forbidden && signal ∉ nonLinearMap)

/-- The signals below `n` that satisfy `P`, in increasing order. -/
def keptBelow (P : ℕ → Bool) (n : ℕ) : List ℕ := (List.range n).filter P

theorem keptBelow_succ (P : ℕ → Bool) (n : ℕ) :
    keptBelow P (n + 1) = keptBelow P n ++ if P n then [n] else [] := by
  rw [keptBelow, List.range_succ, List.filter_append, keptBelow]
  by_cases h : P n <;> simp [h]

theorem length_keptBelow_le (P : ℕ → Bool) (n : ℕ) : (keptBelow P n).length ≤ n := by
  have := List.length_filter_le P (List.range n)
  rwa [List.length_range] at this

/-- The state of the loop before the signal `n`. -/
structure RebuiltBelow (P : ℕ → Bool) (deleted : Finset ℕ) (n : ℕ) (rebuilt : Rebuilt) : Prop where
  free : rebuilt.free = List.range' (keptBelow P n).length (n - (keptBelow P n).length)
  map : ∀ signal pos, rebuilt.map.lookup signal = some pos ↔
    signal < n ∧ P signal ∧ pos = (keptBelow P signal).length
  deleted : ∀ signal, signal ∈ rebuilt.deleted ↔ signal ∈ deleted ∨ signal < n ∧ ¬ P signal

theorem RebuiltBelow.delete (h : RebuiltBelow P deleted n rebuilt) (hP : ¬ P n) {deleted' : Finset ℕ}
    (hdeleted : ∀ signal, signal ∈ deleted' ↔ signal ∈ rebuilt.deleted ∨ signal = n) :
    RebuiltBelow P deleted (n + 1) ⟨rebuilt.map, rebuilt.free ++ [n], deleted'⟩ := by
  have hkept : keptBelow P (n + 1) = keptBelow P n := by
    rw [keptBelow_succ, if_neg hP, List.append_nil]
  have hle := length_keptBelow_le P n
  refine ⟨?_, ?_, ?_⟩
  · rw [hkept, h.free, show n + 1 - (keptBelow P n).length = n - (keptBelow P n).length + 1 by omega,
      List.range'_concat,
      show (keptBelow P n).length + 1 * (n - (keptBelow P n).length) = n by omega]
  · intro signal pos
    rw [h.map]
    constructor
    · rintro ⟨hlt, hrest⟩
      exact ⟨by omega, hrest⟩
    · rintro ⟨hlt, hsignal, hpos⟩
      have hne : signal ≠ n := fun heq => hP (heq ▸ hsignal)
      exact ⟨by omega, hsignal, hpos⟩
  · intro signal
    rw [hdeleted, h.deleted]
    constructor
    · rintro ((hmem | ⟨hlt, hnot⟩) | rfl)
      · exact Or.inl hmem
      · exact Or.inr ⟨by omega, hnot⟩
      · exact Or.inr ⟨by omega, hP⟩
    · rintro (hmem | ⟨hlt, hnot⟩)
      · exact Or.inl (Or.inl hmem)
      · by_cases heq : signal = n
        · exact Or.inr heq
        · exact Or.inl (Or.inr ⟨by omega, hnot⟩)

theorem RebuiltBelow.keep (h : RebuiltBelow P deleted n rebuilt) (hP : P n) {free : List ℕ}
    (hfree : free = List.range' ((keptBelow P n).length + 1) (n - (keptBelow P n).length)) :
    RebuiltBelow P deleted (n + 1)
      ⟨rebuilt.map.insert n (keptBelow P n).length, free, rebuilt.deleted⟩ := by
  have hkept : (keptBelow P (n + 1)).length = (keptBelow P n).length + 1 := by
    rw [keptBelow_succ, if_pos hP, List.length_append, List.length_singleton]
  refine ⟨?_, ?_, ?_⟩
  · rw [hkept, hfree, Nat.succ_sub_succ]
  · intro signal pos
    by_cases heq : signal = n
    · subst heq
      rw [AList.lookup_insert, Option.some.injEq]
      exact ⟨fun hpos => ⟨by omega, hP, hpos.symm⟩, fun hpos => hpos.2.2.symm⟩
    · rw [AList.lookup_insert_ne heq, h.map]
      refine and_congr_left fun _ => ?_
      omega
  · intro signal
    rw [h.deleted]
    refine or_congr_right ⟨fun hs => ⟨by omega, hs.2⟩, fun hs => ⟨?_, hs.2⟩⟩
    have hne : signal ≠ n := fun heq => hs.2 (heq ▸ hP)
    omega

theorem rebuildSignal_spec (h : RebuiltBelow (Stays deleted forbidden nonLinearMap removeUnused) deleted n rebuilt) :
    RebuiltBelow (Stays deleted forbidden nonLinearMap removeUnused) deleted (n + 1)
      (rebuildSignal forbidden nonLinearMap removeUnused rebuilt n) := by
  have hmem : n ∈ rebuilt.deleted ↔ n ∈ deleted := by
    rw [h.deleted]
    exact or_iff_left fun h => Nat.lt_irrefl n h.1
  unfold rebuildSignal
  by_cases hdel : n ∈ deleted
  · rw [if_pos (hmem.mpr hdel)]
    refine h.delete (by simp [Stays, hdel]) ?_
    intro signal
    refine (or_iff_left_of_imp ?_).symm
    rintro rfl
    exact hmem.mpr hdel
  · rw [if_neg fun h => hdel (hmem.mp h)]
    by_cases hunused : (removeUnused && decide (n ∉ forbidden) && decide (n ∉ nonLinearMap)) = true
    · rw [if_pos hunused]
      refine h.delete ?_ ?_
      · rw [Stays, hunused]
        simp
      · intro signal
        rw [Finset.mem_insert]
        exact or_comm
    · rw [if_neg hunused]
      have hP : Stays deleted forbidden nonLinearMap removeUnused n := by
        rw [Bool.not_eq_true] at hunused
        rw [Stays, hunused]
        simp [hdel]
      have hle := length_keptBelow_le (Stays deleted forbidden nonLinearMap removeUnused) n
      cases hfree : rebuilt.free with
      | nil =>
        rw [h.free, List.range'_eq_nil_iff] at hfree
        have heq : (keptBelow (Stays deleted forbidden nonLinearMap removeUnused) n).length = n := by
          omega
        have hnil : ([] : List ℕ) = List.range'
            ((keptBelow (Stays deleted forbidden nonLinearMap removeUnused) n).length + 1)
            (n - (keptBelow (Stays deleted forbidden nonLinearMap removeUnused) n).length) := by
          rw [hfree]
          rfl
        have hkeep := h.keep hP hnil
        rw [heq] at hkeep
        exact hkeep
      | cons newPos free =>
        rw [h.free] at hfree
        obtain ⟨m, hm⟩ : ∃ m, n - (keptBelow (Stays deleted forbidden nonLinearMap removeUnused)
            n).length = m + 1 := by
          refine ⟨n - (keptBelow (Stays deleted forbidden nonLinearMap removeUnused) n).length - 1, ?_⟩
          have : 0 < n - (keptBelow (Stays deleted forbidden nonLinearMap removeUnused) n).length := by
            by_contra hzero
            rw [show n - (keptBelow (Stays deleted forbidden nonLinearMap removeUnused) n).length = 0 by
              omega] at hfree
            cases hfree
          omega
        rw [hm, List.range'_succ] at hfree
        obtain ⟨rfl, rfl⟩ := List.cons.inj hfree
        refine h.keep hP ?_
        rw [hm, List.range'_concat]
        congr 2
        omega

/-- The signals that stay keep their order, and everything else is deleted. -/
theorem rebuildWitness_spec (maxSignal : ℕ) (deleted forbidden : Finset ℕ)
    (nonLinearMap : SignalToConstraints) (removeUnused : Bool) :
    let P := Stays deleted forbidden nonLinearMap removeUnused
    (∀ signal pos, (rebuildWitness maxSignal deleted forbidden nonLinearMap removeUnused).1.lookup
        signal = some pos ↔ signal < maxSignal ∧ P signal ∧ pos = (keptBelow P signal).length) ∧
      ∀ signal, signal ∈ (rebuildWitness maxSignal deleted forbidden nonLinearMap removeUnused).2 ↔
        signal ∈ deleted ∨ signal < maxSignal ∧ ¬ P signal := by
  intro P
  have hloop : ∀ n, RebuiltBelow P deleted n ((List.range n).foldl
      (rebuildSignal forbidden nonLinearMap removeUnused) { deleted := deleted }) := by
    intro n
    induction n with
    | zero =>
      refine ⟨rfl, ?_, ?_⟩
      · intro signal pos
        simp [AList.lookup_empty]
      · intro signal
        simp
    | succ n ih =>
      rw [List.range_succ, List.foldl_concat]
      exact rebuildSignal_spec ih
  exact ⟨(hloop maxSignal).map, (hloop maxSignal).deleted⟩

end Rebuild

/-! ## The witness as a list -/

theorem getElem?_keptBelow {signal : ℕ} (hlt : signal < n) (hP : P signal) :
    (keptBelow P n)[(keptBelow P signal).length]? = some signal := by
  obtain ⟨m, rfl⟩ : ∃ m, n = signal + 1 + m := ⟨n - signal - 1, by omega⟩
  have hsplit : keptBelow P (signal + 1 + m) = keptBelow P signal ++
      (signal :: ((List.range' (signal + 1) m).filter P)) := by
    rw [keptBelow, keptBelow, List.range_eq_range', List.range_eq_range', Nat.add_assoc,
      ← List.range'_append_1, Nat.zero_add, Nat.add_comm 1 m, List.range'_succ, List.filter_append,
      List.filter_cons_of_pos hP]
  rw [hsplit, List.getElem?_append_right (Nat.le_refl _), Nat.sub_self]
  rfl

/-- A map that sends the signals of a list without repetitions to their positions. -/
structure Numbers (signalMap : SignalMap) (signals : List ℕ) : Prop where
  lookup_iff : ∀ signal pos, signalMap.lookup signal = some pos ↔ signals[pos]? = some signal
  nodup : signals.Nodup

theorem Numbers.mem_iff (h : Numbers signalMap signals) {signal : ℕ} : signal ∈ signalMap ↔ signal ∈ signals := by
  rw [AList.mem_iff_exists_lookup, List.mem_iff_getElem?]
  exact exists_congr fun pos => h.lookup_iff signal pos

theorem Numbers.len_eq (h : Numbers signalMap signals) : signalMap.len = signals.length := by
  rw [AList.len_eq_length_keys]
  refine List.Perm.length_eq ?_
  rw [List.perm_ext_iff_of_nodup (AList.keys_nodup signalMap) h.nodup]
  intro signal
  rw [← AList.mem_keys]
  exact h.mem_iff

theorem numbers_keptBelow
    (h : ∀ signal pos, signalMap.lookup signal = some pos ↔ signal < n ∧ P signal ∧ pos = (keptBelow P signal).length) :
    Numbers signalMap (keptBelow P n) := by
  have hnodup : (keptBelow P n).Nodup := List.nodup_range.filter _
  refine ⟨?_, hnodup⟩
  intro signal pos
  rw [h]
  constructor
  · rintro ⟨hlt, hP, rfl⟩
    exact getElem?_keptBelow hlt hP
  · intro hget
    obtain ⟨hlt, hP⟩ := List.mem_filter.mp (List.mem_of_getElem? hget)
    refine ⟨List.mem_range.mp hlt, hP, ?_⟩
    have hget' := getElem?_keptBelow (List.mem_range.mp hlt) hP
    exact (List.getElem?_inj (List.getElem?_eq_some_iff.mp hget).1 hnodup).mp (hget.trans hget'.symm)

/-- `get_witness_as_vec` lists the signals by their positions. -/
theorem getWitnessAsVec_eq (o : HashOrder) {list : ConstraintList}
    (h : Numbers list.signalMap signals) : list.getWitnessAsVec o = some signals := by
  have hpairs : ∀ e ∈ o.walk list.signalMap.pairs, signals[e.2]? = some e.1 := by
    intro e he
    rw [HashOrder.mem_walk] at he
    exact (h.lookup_iff e.1 e.2).mp (AList.mem_pairs_iff_lookup.mp he)
  have hloop := foldlM_invariant
    (f := fun (witness : List ℕ) (e : ℕ × ℕ) =>
      if e.2 < witness.length then some (witness.set e.2 e.1) else none)
    (fun (l : List (ℕ × ℕ)) witness => ∃ done, done ++ l = o.walk list.signalMap.pairs ∧
      witness.length = signals.length ∧ ∀ e ∈ done, witness[e.2]? = signals[e.2]?) ?_
    (l := o.walk list.signalMap.pairs) (s := List.replicate list.noWires 0) ?_
  · obtain ⟨witness, hrun, done, hdone, hlen, hset⟩ := hloop
    rw [List.append_nil] at hdone
    subst hdone
    rw [ConstraintList.getWitnessAsVec, hrun, Option.some.injEq]
    refine List.ext_getElem? ?_
    intro i
    by_cases hi : i < signals.length
    · have hget := List.getElem?_eq_getElem hi
      have hmem : (signals[i], i) ∈ list.signalMap.pairs :=
        AList.mem_pairs_iff_lookup.mpr ((h.lookup_iff _ _).mpr hget)
      exact hset _ ((HashOrder.mem_walk o).mpr hmem)
    · rw [List.getElem?_eq_none (by omega), List.getElem?_eq_none (by omega)]
  · rintro e l witness ⟨done, hdone, hlen, hset⟩
    have he := hpairs e (by rw [← hdone]; simp)
    have hlt : e.2 < witness.length := by
      rw [hlen]
      exact (List.getElem?_eq_some_iff.mp he).1
    refine ⟨witness.set e.2 e.1, if_pos hlt, done ++ [e], ?_, ?_, ?_⟩
    · rw [List.append_assoc]
      exact hdone
    · rw [List.length_set]
      exact hlen
    · intro e' he'
      by_cases heq : e'.2 = e.2
      · rw [heq, List.getElem?_set_self hlt, he]
      · rw [List.getElem?_set_ne (Ne.symm heq)]
        rw [List.mem_append, List.mem_singleton] at he'
        exact hset e' (he'.resolve_right fun h => heq (by rw [h]))
  · refine ⟨[], rfl, ?_, fun e he => absurd he List.not_mem_nil⟩
    rw [List.length_replicate]
    exact h.len_eq

end Circom.ConstraintList
