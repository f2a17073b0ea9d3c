import Circom.Lib.HashMap
import Mathlib.Algebra.BigOperators.Group.List.Basic
import Mathlib.Algebra.Ring.Int.Defs
import Mathlib.Data.Int.Cast.Lemmas
import Mathlib.Tactic.Ring
import Mathlib.Tactic.LinearCombination

/-!
# Linear forms stored as hash maps

A map from variables to integer coefficients denotes, for an assignment of ring elements to the
variables, the sum of the coefficients times the values. The lemmas say how this value changes under
each table operation; it never depends on the iteration order.
-/

namespace AList

open Circom.Lib (HashMap)

variable {K : Type*} {F : Type*} [CommRing F]
variable {m : HashMap K ℤ} {k : K}

/-- The value of the linear form with coefficients `m` under the assignment `ρ`. -/
def eval (ρ : K → F) (m : HashMap K ℤ) : F := (m.entries.map fun e => (e.2 : F) * ρ e.1).sum

theorem eval_eq_sum_pairs (ρ : K → F) (m : HashMap K ℤ) :
    m.eval ρ = (m.pairs.map fun e => (e.2 : F) * ρ e.1).sum := by
  simp [eval, pairs, Function.comp_def]

@[simp] theorem eval_empty (ρ : K → F) : (∅ : HashMap K ℤ).eval ρ = 0 := rfl

theorem eval_eq_of_perm (ρ : K → F) {m' : HashMap K ℤ} (h : m.entries.Perm m'.entries) : m.eval ρ = m'.eval ρ :=
  (h.map _).sum_eq

/-- Two assignments that agree on the keys give the same value. -/
theorem eval_congr {ρ ρ' : K → F} (h : ∀ k ∈ m, ρ k = ρ' k) : m.eval ρ = m.eval ρ' := by
  unfold eval
  congr 1
  refine List.map_congr_left fun e he => ?_
  rw [h e.1 (mem_keys.mpr (List.mem_keys_of_mem he))]

/-- A form whose coefficients all vanish in the ring is zero. -/
theorem eval_eq_zero_of_forall (ρ : K → F) (h : ∀ e ∈ m.pairs, (e.2 : F) = 0) : m.eval ρ = 0 := by
  rw [eval_eq_sum_pairs]
  refine List.sum_eq_zero fun x hx => ?_
  obtain ⟨e, he, rfl⟩ := List.mem_map.mp hx
  rw [h e he, zero_mul]

theorem eval_mapValues (ρ : K → F) (f : ℤ → ℤ) (m : HashMap K ℤ) (c : F)
    (hf : ∀ v, ((f v : ℤ) : F) = v * c) : (m.mapValues f).eval ρ = m.eval ρ * c := by
  simp only [eval, mapValues, List.map_map, Function.comp_def, hf]
  induction m.entries with
  | nil => simp
  | cons e l ih => rw [List.map_cons, List.map_cons, List.sum_cons, List.sum_cons, ih]; ring

variable [DecidableEq K]

theorem eval_insert_of_notMem (ρ : K → F) (h : k ∉ m) (v : ℤ) : (m.insert k v).eval ρ = v * ρ k + m.eval ρ := by
  unfold eval
  rw [entries_insert_of_notMem h, List.map_cons, List.sum_cons]

theorem eval_eq_of_lookup_eq (ρ : K → F) {m' : HashMap K ℤ} (h : ∀ k, m.lookup k = m'.lookup k) :
    m.eval ρ = m'.eval ρ :=
  eval_eq_of_perm ρ (entries_perm_of_lookup h)

theorem erase_of_notMem {V : Type*} {m : HashMap K V} (h : k ∉ m) : m.erase k = m :=
  AList.ext (List.kerase_of_notMem_keys h)

theorem insert_erase_lookup {V : Type*} {m : HashMap K V} {v : V}
    (h : m.lookup k = some v) (k' : K) : ((m.erase k).insert k v).lookup k' = m.lookup k' := by
  by_cases hk : k' = k
  · subst hk; rw [lookup_insert, h]
  · rw [lookup_insert_ne hk, lookup_erase_ne hk]

/-- Splits the term of one key off the form. -/
theorem eval_of_lookup (ρ : K → F) {v : ℤ} (h : m.lookup k = some v) : m.eval ρ = v * ρ k + (m.erase k).eval ρ := by
  rw [← eval_eq_of_lookup_eq ρ (insert_erase_lookup h)]
  exact eval_insert_of_notMem ρ (by rw [mem_erase]; tauto) v

theorem eval_insert (ρ : K → F) (m : HashMap K ℤ) (k : K) (v : ℤ) :
    (m.insert k v).eval ρ = v * ρ k + (m.erase k).eval ρ := by
  rw [eval_of_lookup ρ (lookup_insert m)]
  congr 1
  refine eval_eq_of_lookup_eq ρ fun k' => ?_
  by_cases hk : k' = k
  · subst hk; rw [lookup_erase, lookup_erase]
  · rw [lookup_erase_ne hk, lookup_erase_ne hk, lookup_insert_ne hk]

theorem eval_erase (ρ : K → F) (m : HashMap K ℤ) (k : K) :
    (m.erase k).eval ρ = m.eval ρ - ((m.lookup k).getD 0 : ℤ) * ρ k := by
  cases h : m.lookup k with
  | none => rw [erase_of_notMem (lookup_eq_none.mp h)]; simp
  | some v => rw [eval_of_lookup ρ h]; simp

/-- Changing one coefficient changes the value by the difference. -/
theorem eval_insert_sub (ρ : K → F) (m : HashMap K ℤ) (k : K) (v : ℤ) :
    (m.insert k v).eval ρ = m.eval ρ + ((v : F) - ((m.lookup k).getD 0 : ℤ)) * ρ k := by
  rw [eval_insert, eval_erase]; ring

/-- Changing the value of one variable. -/
theorem eval_update (ρ : K → F) (m : HashMap K ℤ) (k : K) (w : F) :
    m.eval (Function.update ρ k w) = m.eval ρ + ((m.lookup k).getD 0 : ℤ) * (w - ρ k) := by
  have hrest : (m.erase k).eval (Function.update ρ k w) = (m.erase k).eval ρ := by
    refine eval_congr fun y hy => ?_
    rw [Function.update_of_ne (mem_erase.mp hy).1]
  cases h : m.lookup k with
  | none =>
    rw [erase_of_notMem (lookup_eq_none.mp h)] at hrest
    rw [hrest]
    simp
  | some v =>
    rw [eval_of_lookup _ h, eval_of_lookup ρ h, hrest, Function.update_self]
    simp only [Option.getD_some]
    ring

theorem eval_ofPairs (ρ : K → F) {l : List (K × ℤ)} (hl : (l.map Prod.fst).Nodup) :
    (ofPairs l).eval ρ = (l.map fun e => (e.2 : F) * ρ e.1).sum := by
  rw [eval_eq_sum_pairs]
  exact ((entries_ofPairs_perm hl).map _).sum_eq

omit [DecidableEq K] in
/-- Renaming the keys injectively is evaluating under the renamed assignment. -/
theorem eval_ofPairs_map {L : Type*} [DecidableEq L] (ρ : L → F) (f : K → L) (m : HashMap K ℤ)
    (hf : ∀ a ∈ m, ∀ b ∈ m, f a = f b → a = b) :
    (ofPairs (m.pairs.map fun e => (f e.1, e.2))).eval ρ = m.eval (ρ ∘ f) := by
  have hn : ((m.pairs.map fun e => (f e.1, e.2)).map Prod.fst).Nodup := by
    have : ((m.pairs.map fun e => (f e.1, e.2)).map Prod.fst) = m.keys.map f := by
      rw [← pairs_map_fst, List.map_map, List.map_map]; rfl
    rw [this]
    exact (List.nodup_map_iff_inj_on (keys_nodup m)).mpr
      fun a ha b hb => hf a (mem_keys.mpr ha) b (mem_keys.mpr hb)
  rw [eval_ofPairs ρ hn, eval_eq_sum_pairs]
  simp [Function.comp_def]

/-- Dropping pairs whose coefficient is zero keeps the value. -/
theorem eval_ofPairs_filter (ρ : K → F) (m : HashMap K ℤ) :
    (ofPairs (m.pairs.filter fun e => e.2 ≠ 0)).eval ρ = m.eval ρ := by
  have hn : ((m.pairs.filter fun e => e.2 ≠ 0).map Prod.fst).Nodup := by
    refine List.Nodup.sublist (List.filter_sublist.map _) ?_
    rw [pairs_map_fst]
    exact keys_nodup m
  rw [eval_ofPairs ρ hn, eval_eq_sum_pairs]
  induction m.pairs with
  | nil => rfl
  | cons e l ih =>
    by_cases he : e.2 = 0
    · rw [List.filter_cons_of_neg (by simpa using he), ih]; simp [he]
    · rw [List.filter_cons_of_pos (by simpa using he), List.map_cons, List.sum_cons, ih]; simp

end AList
