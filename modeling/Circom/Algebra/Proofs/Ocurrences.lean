import Circom.Algebra.Proofs.Elimination
import Circom.Lib.PartialFold

/-!
# Counting occurrences

The counters of the second heuristic hold, for each signal that is not eliminated yet, the number of
constraints that are still to be treated and contain it.
-/

namespace Circom.Algebra.SimplificationUtils

open Circom.Lib (HashMap HashOrder foldlM_invariant exists_mapM exists_of_forall₂_right)

/-- The number of constraints that contain a signal. -/
def ocurrences (k : ℕ) (constraints : List C) : ℕ := constraints.countP fun c => k ∈ c.c

theorem ocurrences_eq_zero {k : ℕ} {constraints : List C} :
    ocurrences k constraints = 0 ↔ ∀ c ∈ constraints, k ∉ c.c := by
  simp [ocurrences, List.countP_eq_zero]

theorem ocurrences_cons (k : ℕ) (c : C) (constraints : List C) :
    ocurrences k (c :: constraints) = ocurrences k constraints + if k ∈ c.c then 1 else 0 := by
  simp [ocurrences, List.countP_cons]

theorem ocurrences_concat (k : ℕ) (constraints : List C) (c : C) :
    ocurrences k (constraints ++ [c]) = ocurrences k constraints + if k ∈ c.c then 1 else 0 := by
  simp [ocurrences, List.countP_append, List.countP_cons]

/-- Emptying one constraint takes away its occurrences. -/
theorem ocurrences_set {constraints : List C} {pos : ℕ} {c : C} (h : constraints[pos]? = some c)
    (k : ℕ) :
    ocurrences k constraints =
      ocurrences k (constraints.set pos Constraint.empty) + if k ∈ c.c then 1 else 0 := by
  obtain ⟨hlt, rfl⟩ := List.getElem?_eq_some_iff.mp h
  have hle : (if k ∈ constraints[pos].c then 1 else 0) ≤ ocurrences k constraints := by
    split_ifs with hk
    · exact List.countP_pos_iff.mpr ⟨_, List.getElem_mem hlt, by simpa using hk⟩
    · exact Nat.zero_le _
  have he : k ∉ (Constraint.empty : C).c := AList.notMem_empty k
  unfold ocurrences at hle ⊢
  rw [List.countP_set hlt]
  simp only [decide_eq_true_eq, he, if_false, Nat.add_zero]
  omega

namespace SignalsInformation

/-! ## The initial counters -/

theorem countOcurrence_foldl (pos : ℕ) {keys : List ℕ} (hkeys : keys.Nodup)
    (acc : HashMap ℕ ℕ × HashMap ℕ ℕ) (k : ℕ) :
    (keys.foldl (countOcurrence pos) acc).1.lookup k =
        (if k ∈ keys then some ((acc.1.lookup k).getD 0 + 1) else acc.1.lookup k) ∧
      (keys.foldl (countOcurrence pos) acc).2.lookup k =
        if k ∈ keys ∧ acc.1.lookup k = none then some pos else acc.2.lookup k := by
  induction keys generalizing acc with
  | nil => simp
  | cons a keys ih =>
    obtain ⟨ha, hkeys⟩ := List.nodup_cons.mp hkeys
    rw [List.foldl_cons, (ih hkeys _).1, (ih hkeys _).2]
    by_cases hka : k = a
    · subst hka
      cases hl : acc.1.lookup k <;> simp [countOcurrence, hl, ha]
    · have h1 : (countOcurrence pos acc a).1.lookup k = acc.1.lookup k := by
        unfold countOcurrence
        split <;> exact AList.lookup_insert_ne hka
      have h2 : (countOcurrence pos acc a).2.lookup k = acc.2.lookup k := by
        unfold countOcurrence
        split
        · rfl
        · exact AList.lookup_insert_ne hka
      simp [h1, h2, hka]

theorem countOcurrences_concat (constraints : List C) (c : C) (signals : SignalDefinition4) :
    countOcurrences (constraints ++ [c]) signals =
      (c.c.keys.filter signals.canBeTaken).foldl (countOcurrence constraints.length)
        (countOcurrences constraints signals) := by
  simp [countOcurrences, List.zipIdx_append]

/-- The first table counts the takeable signals, the second one has a position of each of them. -/
theorem countOcurrences_spec (constraints : List C) (signals : SignalDefinition4) (k : ℕ) :
    ((countOcurrences constraints signals).1.lookup k =
      if k ∈ signals.forbidden ∨ ocurrences k constraints = 0 then none
      else some (ocurrences k constraints)) ∧
    (k ∉ signals.forbidden → ocurrences k constraints ≠ 0 →
      ∃ pos c, (countOcurrences constraints signals).2.lookup k = some pos ∧
        constraints[pos]? = some c ∧ k ∈ c.c) := by
  induction constraints using List.reverseRecOn with
  | nil => simp [countOcurrences, ocurrences]
  | append_singleton l c ih =>
    obtain ⟨ih1, ih2⟩ := ih
    have hnd : (c.c.keys.filter signals.canBeTaken).Nodup := (AList.keys_nodup _).filter _
    have hmem : k ∈ c.c.keys.filter signals.canBeTaken ↔ k ∈ c.c ∧ k ∉ signals.forbidden := by
      simp [SignalDefinition4.canBeTaken, AList.mem_keys]
    obtain ⟨h1, h2⟩ := countOcurrence_foldl l.length hnd (countOcurrences l signals) k
    simp only [hmem, ih1] at h1 h2
    rw [countOcurrences_concat, h1, h2, ocurrences_concat]
    constructor
    · by_cases hf : k ∈ signals.forbidden <;> by_cases hc : k ∈ c.c <;>
        by_cases hz : ocurrences k l = 0 <;> simp [hf, hc, hz]
    · intro hf hne
      by_cases hz : ocurrences k l = 0
      · have hc : k ∈ c.c := by
          by_contra hc
          exact hne (by simp [hz, hc])
        exact ⟨l.length, c, by simp [hf, hc, hz], by simp, hc⟩
      · obtain ⟨pos, d, hl, hd, hk⟩ := ih2 hf hz
        refine ⟨pos, d, by simp [hf, hz, hl], ?_, hk⟩
        rw [List.getElem?_append_left (List.getElem?_eq_some_iff.mp hd).1]
        exact hd

theorem new_spec (constraints : List C) (signals : SignalDefinition4) :
    ∃ info uniques, new constraints signals = some (info, uniques) ∧
      (∀ k ∉ signals.forbidden, ocurrences k constraints ≠ 0 →
        info.signalToOcurrences.lookup k = some (ocurrences k constraints)) ∧
      ∀ k pos, uniques.lookup k = some pos → k ∉ signals.forbidden ∧
        ocurrences k constraints = 1 ∧ ∃ c, constraints[pos]? = some c ∧ k ∈ c.c := by
  have hspec := countOcurrences_spec constraints signals
  have hbody : ∀ e ∈ (countOcurrences constraints signals).1.pairs.filter fun e => e.2 = 1,
      ∃ b, (do some (e.1, ← (countOcurrences constraints signals).2.lookup e.1)) = some b ∧
        b.1 ∉ signals.forbidden ∧ ocurrences b.1 constraints = 1 ∧
          ∃ c, constraints[b.2]? = some c ∧ b.1 ∈ c.c := by
    rintro ⟨k, n⟩ he
    simp only [List.mem_filter, decide_eq_true_eq] at he
    obtain ⟨he, rfl⟩ := he
    have hl := AList.mem_pairs_iff_lookup.mp he
    rw [(hspec k).1] at hl
    split_ifs at hl with hcase
    rw [not_or] at hcase
    obtain ⟨pos, c, hrep, hc, hk⟩ := (hspec k).2 hcase.1 hcase.2
    exact ⟨(k, pos), by simp [hrep], hcase.1, Option.some.inj hl, c, hc, hk⟩
  obtain ⟨bs, hbs, hall⟩ := exists_mapM hbody
  refine ⟨⟨(countOcurrences constraints signals).1⟩, AList.ofPairs bs, ?_, fun k hk hne => ?_,
    fun k pos hl => ?_⟩
  · unfold new
    simp only [Option.bind_eq_bind] at hbs ⊢
    rw [hbs, Option.bind_some]
  · rw [(hspec k).1, if_neg (by simp [hk, hne])]
  · obtain ⟨-, -, hP⟩ := exists_of_forall₂_right hall (AList.mem_of_lookup_ofPairs hl)
    exact hP

/-! ## Removing a constraint -/

/-- No counter of the constraint is zero, so none overflows. -/
theorem removeConstraint_spec (info : SignalsInformation) (c : C) (signals : SignalDefinition4)
    (h : ∀ k ∈ c.c, k ∉ signals.forbidden → info.signalToOcurrences.lookup k ≠ some 0) :
    ∃ info', info.removeConstraint c signals = some info' ∧
      ∀ k, info'.signalToOcurrences.lookup k =
        if k ∈ c.c ∧ k ∉ signals.forbidden then (info.signalToOcurrences.lookup k).map (· - 1)
        else info.signalToOcurrences.lookup k := by
  have hmem : ∀ k, k ∈ c.c.keys.filter signals.canBeTaken ↔ k ∈ c.c ∧ k ∉ signals.forbidden := by
    simp [SignalDefinition4.canBeTaken, AList.mem_keys]
  let inv : List ℕ → SignalsInformation → Prop := fun l info' =>
    l.Nodup ∧ (∀ k ∈ l, k ∈ c.c ∧ k ∉ signals.forbidden) ∧ ∀ k, info'.signalToOcurrences.lookup k =
      if (k ∈ c.c ∧ k ∉ signals.forbidden) ∧ k ∉ l then
        (info.signalToOcurrences.lookup k).map (· - 1)
      else info.signalToOcurrences.lookup k
  obtain ⟨info', hrun, -, -, hinv⟩ : ∃ info', info.removeConstraint c signals = some info' ∧ inv [] info' := by
    unfold removeConstraint
    refine foldlM_invariant inv (fun a l s hinv => ?_)
      ⟨(AList.keys_nodup _).filter _, fun k hk => (hmem k).mp hk, fun k => ?_⟩
    · obtain ⟨hnd, hl, hs⟩ := hinv
      obtain ⟨ha, hnd⟩ := List.nodup_cons.mp hnd
      have hac := hl a List.mem_cons_self
      have hsa := hs a
      rw [if_neg (by simp)] at hsa
      have hne := h a hac.1 hac.2
      rw [← hsa] at hne
      -- only the entry of `a` changes, and `a` does not come again
      split
      · next h0 => exact absurd h0 hne
      · next n hn =>
        refine ⟨_, rfl, hnd, fun k hk => hl k (List.mem_cons_of_mem a hk), fun k => ?_⟩
        by_cases hka : k = a
        · subst hka
          simp [hac, ha, ← hsa, hn]
        · simp [AList.lookup_insert_ne hka, hs k, hka]
      · next hn =>
        refine ⟨_, rfl, hnd, fun k hk => hl k (List.mem_cons_of_mem a hk), fun k => ?_⟩
        by_cases hka : k = a
        · subst hka
          simp [hac, ha, ← hsa, hn]
        · simp [hs k, hka]
    · rw [if_neg]
      rintro ⟨h1, h2⟩
      exact h2 ((hmem k).mpr h1)
  exact ⟨info', hrun, fun k => by simpa using hinv k⟩

end SignalsInformation

/-! ## The choice -/

/-- The outcome of the walk over `keys` from the candidate `ret`. When no deleted signal is met, none
is there. -/
def Chosen (signals : SignalDefinition4) (keys : List ℕ) (ret : Option ℕ) : Option ℕ → Prop
  | none => ret = none ∧ ∀ k ∈ keys, k ∈ signals.forbidden
  | some out =>
    (out ∈ keys ∧ out ∉ signals.forbidden ∨ ret = some out) ∧
      (out ∈ keys ∧ out ∈ signals.deletedSymbols ∨
        ∀ k ∈ keys, k ∉ signals.forbidden → k ∉ signals.deletedSymbols)

theorem Chosen.cons_forbidden {signals : SignalDefinition4} {keys : List ℕ} {ret result : Option ℕ}
    (h : Chosen signals keys ret result) {a : ℕ} (ha : a ∈ signals.forbidden) :
    Chosen signals (a :: keys) ret result := by
  cases result with
  | none => exact ⟨h.1, by simpa [ha] using h.2⟩
  | some out =>
    exact ⟨h.1.imp_left (And.imp_left (List.mem_cons_of_mem a)),
      h.2.imp (And.imp_left (List.mem_cons_of_mem a)) fun hk => by simpa [ha] using hk⟩

/-- Whatever the candidate is after `a`, it is `a` or the one before. -/
theorem Chosen.cons {signals : SignalDefinition4} {keys : List ℕ} {ret result : Option ℕ} {a b : ℕ}
    (h : Chosen signals keys (some b) result) (ha : a ∉ signals.forbidden)
    (hd : a ∉ signals.deletedSymbols) (hb : b = a ∨ ret = some b) :
    Chosen signals (a :: keys) ret result := by
  cases result with
  | none => exact absurd h.1 (Option.some_ne_none b)
  | some out =>
    refine ⟨?_, h.2.imp (And.imp_left (List.mem_cons_of_mem a)) fun hk => by simpa [hd] using hk⟩
    rcases h.1 with ⟨h1, h2⟩ | h1
    · exact Or.inl ⟨List.mem_cons_of_mem a h1, h2⟩
    · cases h1
      rcases hb with rfl | h
      · exact Or.inl ⟨List.mem_cons_self, ha⟩
      · exact Or.inr h

theorem takeSignal4Loop_spec (signals : SignalDefinition4) (info : SignalsInformation)
    (keys : List ℕ) (h : ∀ k ∈ keys, k ∉ signals.forbidden → k ∉ signals.deletedSymbols →
      ∃ n, info.signalToOcurrences.lookup k = some n) (ret : Option (ℕ × ℕ)) :
    ∃ result, takeSignal4Loop signals info ret keys = some result ∧
      Chosen signals keys (ret.map Prod.fst) result := by
  induction keys generalizing ret with
  | nil => cases ret <;> exact ⟨_, rfl, by simp [Chosen]⟩
  | cons a keys ih =>
    have ih := ih fun k hk => h k (List.mem_cons_of_mem a hk)
    unfold takeSignal4Loop
    by_cases hf : a ∈ signals.forbidden
    · obtain ⟨result, hrun, hres⟩ := ih ret
      exact ⟨result, by simpa [SignalDefinition4.canBeTaken, hf] using hrun, hres.cons_forbidden hf⟩
    by_cases hd : a ∈ signals.deletedSymbols
    · exact ⟨some a, by simp [SignalDefinition4.canBeTaken, SignalDefinition4.isDeleted, hf, hd],
        Or.inl ⟨List.mem_cons_self, hf⟩, Or.inl ⟨List.mem_cons_self, hd⟩⟩
    obtain ⟨n, hn⟩ := h a List.mem_cons_self hf hd
    have key : ∀ best : ℕ × ℕ, best.1 = a ∨ ret.map Prod.fst = some best.1 →
        ∃ result, takeSignal4Loop signals info (some best) keys = some result ∧
          Chosen signals (a :: keys) (ret.map Prod.fst) result := fun best hbest => by
      obtain ⟨result, hrun, hres⟩ := ih (some best)
      exact ⟨result, hrun, hres.cons hf hd hbest⟩
    simp only [SignalDefinition4.canBeTaken, SignalDefinition4.isDeleted, hf, hd, hn,
      not_false_iff, decide_true, decide_false, if_true, if_false, Bool.false_eq_true,
      Option.bind_eq_bind, Option.bind_some]
    cases ret with
    | none => exact key (a, n) (Or.inl rfl)
    | some best =>
      dsimp only
      split_ifs
      · exact key (a, n) (Or.inl rfl)
      · exact key (a, best.2) (Or.inl rfl)
      · exact key best (Or.inr rfl)

theorem takeSignal4_spec (o : HashOrder) (signals : SignalDefinition4) (info : SignalsInformation)
    (work : C) (h : ∀ k ∈ work.c, k ∉ signals.forbidden → k ∉ signals.deletedSymbols →
      ∃ n, info.signalToOcurrences.lookup k = some n) :
    ∃ result, takeSignal4 o signals info work = some result ∧
      match result with
      | none => ∀ k ∈ work.c, k ∈ signals.forbidden
      | some out => out ∈ work.c ∧ out ∉ signals.forbidden ∧ (out ∈ signals.deletedSymbols ∨
          ∀ k ∈ work.c, k ∉ signals.forbidden → k ∉ signals.deletedSymbols) := by
  have hmem : ∀ k, k ∈ o.walk work.c.keys ↔ k ∈ work.c := fun k => by
    rw [HashOrder.mem_walk, AList.mem_keys]
  obtain ⟨result, hrun, hres⟩ := takeSignal4Loop_spec signals info (o.walk work.c.keys)
    (fun k hk => h k ((hmem k).mp hk)) none
  refine ⟨result, hrun, ?_⟩
  cases result with
  | none => exact fun k hk => hres.2 k ((hmem k).mpr hk)
  | some out =>
    obtain ⟨⟨h1, h2⟩ | h1, h3⟩ := hres
    · exact ⟨(hmem out).mp h1, h2, h3.imp And.right fun h k hk => h k ((hmem k).mpr hk)⟩
    · cases h1

end Circom.Algebra.SimplificationUtils
