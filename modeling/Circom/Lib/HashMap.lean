import Mathlib.Data.List.AList
import Mathlib.Data.Finmap
import Mathlib.Data.List.Sort
import Mathlib.Data.List.Basic
import Mathlib.Data.List.Perm.Basic
import Mathlib.Data.List.Forall2
import Mathlib.Data.List.Pairwise
import Mathlib.Data.Finset.Lattice.Fold
import Mathlib.Order.Interval.Finset.Nat
import Mathlib.Order.Lattice.Nat

/-!
# Hash maps

A hash map is a finite map together with the order in which its buckets are visited. It is modelled
by Mathlib's `AList`: an association list without repeated keys, whose list order is the iteration
order. `AList.lookup`, `AList.insert` and `AList.erase` are the table operations; this file adds the
ones that walk the whole table.
-/

namespace Circom.Lib

/-- A finite map listed in its iteration order. -/
abbrev HashMap (K : Type*) (V : Type*) := AList fun _ : K => V

end Circom.Lib

namespace AList

open Circom.Lib (HashMap)

variable {K V W : Type*}

/-- The key-value pairs in iteration order. -/
def pairs (m : HashMap K V) : List (K × V) := m.entries.map fun e => (e.1, e.2)

/-- The number of keys. -/
def len (m : HashMap K V) : ℕ := m.entries.length

/-- Applies `f` to every value, keeping the keys. -/
def mapValues (f : V → W) (m : HashMap K V) : HashMap K W :=
  ⟨m.entries.map fun e => ⟨e.1, f e.2⟩, m.nodupKeys.map₂ fun _ => f⟩

/-- Keeps the entries that satisfy a predicate. -/
def retain (f : K → V → Bool) (m : HashMap K V) : HashMap K V :=
  ⟨m.entries.filter fun e => f e.1 e.2, m.nodupKeys.sublist List.filter_sublist⟩

/-- Inserts the pairs of a list, one after the other, into an empty map. -/
def ofPairs [DecidableEq K] (l : List (K × V)) : HashMap K V :=
  l.foldl (fun m e => m.insert e.1 e.2) ∅

/-! ## Pairs -/

theorem mem_pairs {m : HashMap K V} {k : K} {v : V} :
    (k, v) ∈ m.pairs ↔ (⟨k, v⟩ : Σ _ : K, V) ∈ m.entries := by
  simp only [pairs, List.mem_map, Prod.mk.injEq]
  constructor
  · rintro ⟨⟨a, b⟩, hm, rfl, rfl⟩; exact hm
  · intro h; exact ⟨_, h, rfl, rfl⟩

@[simp] theorem pairs_map_fst (m : HashMap K V) : m.pairs.map Prod.fst = m.keys := by
  simp [pairs, keys, List.keys, Function.comp_def]

@[simp] theorem pairs_empty : (∅ : HashMap K V).pairs = [] := rfl

@[simp] theorem len_empty : (∅ : HashMap K V).len = 0 := rfl

theorem len_eq_length_keys (m : HashMap K V) : m.len = m.keys.length := by
  simp [len, keys, List.keys]

theorem len_eq_zero {m : HashMap K V} : m.len = 0 ↔ m = ∅ := by
  constructor
  · intro h; exact AList.ext (List.length_eq_zero_iff.mp h)
  · rintro rfl; rfl

@[simp] theorem pairs_mapValues (f : V → W) (m : HashMap K V) :
    (m.mapValues f).pairs = m.pairs.map fun e => (e.1, f e.2) := by
  simp [pairs, mapValues, Function.comp_def]

@[simp] theorem keys_mapValues (f : V → W) (m : HashMap K V) : (m.mapValues f).keys = m.keys := by
  simp [keys, mapValues, List.keys, Function.comp_def]

@[simp] theorem mem_mapValues (f : V → W) (m : HashMap K V) {k : K} :
    k ∈ m.mapValues f ↔ k ∈ m := by
  rw [mem_keys, keys_mapValues, mem_keys]

variable [DecidableEq K]

theorem mem_pairs_iff_lookup {m : HashMap K V} {k : K} {v : V} :
    (k, v) ∈ m.pairs ↔ m.lookup k = some v := by
  rw [mem_pairs]; exact mem_lookup_iff.symm

theorem mem_iff_exists_lookup {m : HashMap K V} {k : K} : k ∈ m ↔ ∃ v, m.lookup k = some v := by
  rw [← lookup_isSome, Option.isSome_iff_exists]

@[simp] theorem lookup_mapValues (f : V → W) (m : HashMap K V) (k : K) :
    (m.mapValues f).lookup k = (m.lookup k).map f := by
  have h := List.dlookup_map₂ (l := m.entries) (f := fun _ : K => f) k
  exact h

/-- A map is determined, up to its iteration order, by its lookups. -/
theorem entries_perm_of_lookup {m m' : HashMap K V} (h : ∀ k, m.lookup k = m'.lookup k) :
    m.entries.Perm m'.entries :=
  List.lookup_ext m.nodupKeys m'.nodupKeys fun k v => by
    have := h k
    simp only [lookup] at this
    rw [this]

theorem toFinmap_eq_iff_lookup {m m' : HashMap K V} :
    m.toFinmap = m'.toFinmap ↔ ∀ k, m.lookup k = m'.lookup k := by
  rw [AList.toFinmap_eq]
  exact ⟨fun h k => perm_lookup h, entries_perm_of_lookup⟩

/-! ## Building a map by insertions -/

@[simp] theorem ofPairs_nil : (ofPairs [] : HashMap K V) = ∅ := rfl

theorem ofPairs_concat (l : List (K × V)) (e : K × V) :
    ofPairs (l ++ [e]) = (ofPairs l).insert e.1 e.2 := by
  simp [ofPairs]

theorem mem_foldl_insert (l : List (K × V)) (m : HashMap K V) {k : K} :
    k ∈ l.foldl (fun m e => m.insert e.1 e.2) m ↔ k ∈ l.map Prod.fst ∨ k ∈ m := by
  induction l generalizing m with
  | nil => simp
  | cons e l ih =>
    simp only [List.foldl_cons, ih, mem_insert, List.map_cons, List.mem_cons]
    tauto

@[simp] theorem mem_ofPairs {l : List (K × V)} {k : K} : k ∈ ofPairs l ↔ k ∈ l.map Prod.fst := by
  simp only [ofPairs, mem_foldl_insert]
  simp

/-- With distinct keys no insertion overwrites another one. -/
theorem lookup_ofPairs {l : List (K × V)} (hl : (l.map Prod.fst).Nodup) {k : K} {v : V} :
    (ofPairs l).lookup k = some v ↔ (k, v) ∈ l := by
  induction l using List.reverseRecOn with
  | nil => simp
  | append_singleton l e ih =>
    obtain ⟨k', v'⟩ := e
    rw [List.map_append, List.nodup_append] at hl
    obtain ⟨hl1, -, hl2⟩ := hl
    rw [ofPairs_concat, List.mem_append]
    by_cases hk : k = k'
    · subst hk
      have hnot : (k, v) ∉ l := fun hm =>
        hl2 k (List.mem_map_of_mem (f := Prod.fst) hm) k (by simp) rfl
      simp only [lookup_insert, Option.some.injEq, hnot, List.mem_singleton, Prod.mk.injEq, true_and,
        false_or]
      exact eq_comm
    · rw [lookup_insert_ne hk, ih hl1]
      simp [hk]

/-- The last pair of a key is the one that stays. -/
theorem lookup_ofPairs_eq_find (l : List (K × V)) (k : K) :
    (ofPairs l).lookup k = (l.reverse.find? fun e => e.1 = k).map Prod.snd := by
  induction l using List.reverseRecOn with
  | nil => simp
  | append_singleton l e ih =>
    rw [ofPairs_concat, List.reverse_append]
    by_cases hk : k = e.1
    · subst hk; simp
    · rw [lookup_insert_ne hk, ih]
      simp [Ne.symm hk]

theorem mem_of_lookup_ofPairs {l : List (K × V)} {k : K} {v : V}
    (h : (ofPairs l).lookup k = some v) : (k, v) ∈ l := by
  rw [lookup_ofPairs_eq_find, Option.map_eq_some_iff] at h
  obtain ⟨⟨k', v'⟩, hf, rfl⟩ := h
  have hk := List.find?_some hf
  simp only [decide_eq_true_eq] at hk
  subst hk
  exact List.mem_reverse.mp (List.mem_of_find?_eq_some hf)

theorem entries_ofPairs_perm {l : List (K × V)} (hl : (l.map Prod.fst).Nodup) :
    (ofPairs l).pairs.Perm l := by
  have hp : (ofPairs l).pairs.Nodup :=
    List.Nodup.of_map Prod.fst (by rw [pairs_map_fst]; exact keys_nodup _)
  refine (List.perm_ext_iff_of_nodup hp (List.Nodup.of_map _ hl)).mpr fun e => ?_
  rw [show e = (e.1, e.2) from rfl, mem_pairs_iff_lookup, lookup_ofPairs hl]

theorem ofPairs_pairs_lookup (m : HashMap K V) (k : K) : (ofPairs m.pairs).lookup k = m.lookup k := by
  have hn : (m.pairs.map Prod.fst).Nodup := by rw [pairs_map_fst]; exact keys_nodup m
  ext v
  exact (lookup_ofPairs hn).trans mem_pairs_iff_lookup

end AList

/-!
## Arbitrary iteration orders

A program that walks a hash table, or collects the results of a thread pool, sees the items in an
order that nothing fixes. A `HashOrder` is the collection of all these choices of one run: one
permutation for every program point, where program points are named by paths. A function that makes
several such choices hands the sub-collection `o.sub i` to the `i`-th of them, so the choices of two
different points are independent, and a statement for every `HashOrder` is a statement for every
possible order of every walk.
-/

namespace Circom.Lib

/-- The iteration orders met during one run. -/
structure HashOrder where
  /-- The order in which the walk at a program point visits a list of items. -/
  order : List ℕ → {α : Type} → List α → List α
  /-- Every item is visited exactly once. -/
  perm : ∀ (path : List ℕ) {α : Type} (l : List α), (order path l).Perm l

namespace HashOrder

/-- The choices made below the `i`-th program point. -/
def sub (o : HashOrder) (i : ℕ) : HashOrder :=
  ⟨fun path => o.order (i :: path), fun path => o.perm (i :: path)⟩

/-- The order of the walk at the current program point. -/
def walk (o : HashOrder) {α : Type} (l : List α) : List α := o.order [] l

/-- The run in which every walk keeps the order of the list. -/
def listOrder : HashOrder := ⟨fun _ _ l => l, fun _ _ l => List.Perm.refl l⟩

instance : Inhabited HashOrder := ⟨listOrder⟩

theorem walk_perm (o : HashOrder) {α : Type} (l : List α) : (o.walk l).Perm l := o.perm [] l

@[simp] theorem mem_walk (o : HashOrder) {α : Type} {l : List α} {a : α} : a ∈ o.walk l ↔ a ∈ l :=
  (o.walk_perm l).mem_iff

@[simp] theorem length_walk (o : HashOrder) {α : Type} (l : List α) :
    (o.walk l).length = l.length :=
  (o.walk_perm l).length_eq

@[simp] theorem walk_nil (o : HashOrder) {α : Type} : o.walk ([] : List α) = [] :=
  List.perm_nil.mp (o.walk_perm [])

theorem nodup_walk (o : HashOrder) {α : Type} {l : List α} : (o.walk l).Nodup ↔ l.Nodup :=
  (o.walk_perm l).nodup_iff

end HashOrder

/-!
## The last element of every key

When the elements of a list are put into a table one after the other, the last one of every key stays.
-/

variable {α β K : Type*} [DecidableEq K]

/-- The elements that have no later element with the same key. -/
def lastOfEach (key : α → K) (l : List α) : List α := l.pwFilter fun a b => key a ≠ key b

theorem map_lastOfEach (key : α → K) (l : List α) :
    (lastOfEach key l).map key = (l.map key).dedup :=
  (List.pwFilter_map (R := (· ≠ ·)) key l).symm

theorem mem_map_lastOfEach {key : α → K} {l : List α} {k : K} :
    k ∈ (lastOfEach key l).map key ↔ k ∈ l.map key := by
  rw [map_lastOfEach, List.mem_dedup]

theorem nodup_map_lastOfEach (key : α → K) (l : List α) : ((lastOfEach key l).map key).Nodup := by
  rw [map_lastOfEach]
  exact List.nodup_dedup _

theorem lastOfEach_cons (key : α → K) (a : α) (l : List α) :
    lastOfEach key (a :: l) =
      if key a ∈ l.map key then lastOfEach key l else a :: lastOfEach key l := by
  have hiff : (∀ b ∈ lastOfEach key l, key a ≠ key b) ↔ key a ∉ l.map key := by
    rw [← mem_map_lastOfEach, List.mem_map]
    constructor
    · rintro h ⟨b, hb, heq⟩
      exact h b hb heq.symm
    · intro h b hb heq
      exact h ⟨b, hb, heq.symm⟩
  by_cases h : key a ∈ l.map key
  · rw [if_pos h, lastOfEach, List.pwFilter_cons_of_neg (fun hall => hiff.mp hall h)]
    rfl
  · rw [if_neg h, lastOfEach, List.pwFilter_cons_of_pos (hiff.mpr h)]
    rfl

theorem mem_lastOfEach {key : α → K} {l : List α} {a : α} :
    a ∈ lastOfEach key l ↔
      ∃ i, l[i]? = some a ∧ ∀ (j : ℕ) b, i < j → l[j]? = some b → key b ≠ key a := by
  induction l with
  | nil => simp [lastOfEach]
  | cons x l ih =>
    rw [lastOfEach_cons]
    constructor
    · intro hmem
      have htail : a ∈ lastOfEach key l → ∃ i : ℕ, (x :: l)[i]? = some a ∧
          ∀ (j : ℕ) b, i < j → (x :: l)[j]? = some b → key b ≠ key a := by
        intro hmem
        obtain ⟨i, hi, hlater⟩ := ih.mp hmem
        refine ⟨i + 1, by rw [List.getElem?_cons_succ]; exact hi, ?_⟩
        intro j b hj hb
        obtain ⟨j, rfl⟩ : ∃ n, j = n + 1 := ⟨j - 1, by omega⟩
        rw [List.getElem?_cons_succ] at hb
        exact hlater j b (by omega) hb
      split_ifs at hmem with hx
      · exact htail hmem
      · rcases List.mem_cons.mp hmem with rfl | hmem
        · refine ⟨0, rfl, ?_⟩
          intro j b hj hb heq
          obtain ⟨j, rfl⟩ : ∃ n, j = n + 1 := ⟨j - 1, by omega⟩
          rw [List.getElem?_cons_succ] at hb
          exact hx (List.mem_map.mpr ⟨b, List.mem_of_getElem? hb, heq⟩)
        · exact htail hmem
    · rintro ⟨i, hi, hlater⟩
      cases i with
      | zero =>
        obtain rfl : x = a := Option.some.inj hi
        have hx : key x ∉ l.map key := by
          intro hmem
          obtain ⟨b, hb, heq⟩ := List.mem_map.mp hmem
          obtain ⟨j, hj⟩ := List.mem_iff_getElem?.mp hb
          exact hlater (j + 1) b (by omega) (by rw [List.getElem?_cons_succ]; exact hj) heq
        rw [if_neg hx]
        exact List.mem_cons_self
      | succ i =>
        rw [List.getElem?_cons_succ] at hi
        have hmem : a ∈ lastOfEach key l := by
          refine ih.mpr ⟨i, hi, ?_⟩
          intro j b hj hb
          exact hlater (j + 1) b (by omega) (by rw [List.getElem?_cons_succ]; exact hb)
        split_ifs
        · exact hmem
        · exact List.mem_cons_of_mem _ hmem

/-- A filter that only looks at the key can be applied before. -/
theorem lastOfEach_filter {key : α → K} {P : α → Bool} (hP : ∀ a b, key a = key b → P a = P b)
    (l : List α) : lastOfEach key (l.filter P) = (lastOfEach key l).filter P := by
  induction l with
  | nil => rfl
  | cons a l ih =>
    have hkey : P a → (key a ∈ (l.filter P).map key ↔ key a ∈ l.map key) := by
      intro ha
      simp only [List.mem_map, List.mem_filter]
      constructor
      · rintro ⟨b, ⟨hb, -⟩, heq⟩
        exact ⟨b, hb, heq⟩
      · rintro ⟨b, hb, heq⟩
        exact ⟨b, ⟨hb, by rw [hP b a heq, ha]⟩, heq⟩
    by_cases ha : P a
    · rw [List.filter_cons_of_pos ha, lastOfEach_cons, lastOfEach_cons]
      by_cases hmem : key a ∈ l.map key
      · rw [if_pos ((hkey ha).mpr hmem), if_pos hmem, ih]
      · rw [if_neg fun h => hmem ((hkey ha).mp h), if_neg hmem, List.filter_cons_of_pos ha, ih]
    · rw [List.filter_cons_of_neg ha, lastOfEach_cons, ih]
      split_ifs
      · rfl
      · rw [List.filter_cons_of_neg ha]

theorem forall₂_lastOfEach {K' : Type*} [DecidableEq K'] {R : α → β → Prop} {key : α → K}
    {key' : β → K'} {l : List α} {l' : List β} (h : List.Forall₂ R l l')
    (hkey : ∀ a b a' b', R a b → R a' b' → (key a = key a' ↔ key' b = key' b')) :
    List.Forall₂ R (lastOfEach key l) (lastOfEach key' l') := by
  induction h with
  | nil => exact .nil
  | @cons a b l l' hab hl ih =>
    have hmem : key a ∈ l.map key ↔ key' b ∈ l'.map key' := by
      clear ih
      induction hl with
      | nil => simp
      | cons hab' _ ih =>
        rw [List.map_cons, List.map_cons, List.mem_cons, List.mem_cons, ih, hkey _ _ _ _ hab hab']
    rw [lastOfEach_cons, lastOfEach_cons]
    by_cases ha : key a ∈ l.map key
    · rw [if_pos ha, if_pos (hmem.mp ha)]
      exact ih
    · rw [if_neg ha, if_neg fun h => ha (hmem.mpr h)]
      exact .cons hab ih

end Circom.Lib

/-- A table holds the last value of every key. -/
theorem AList.lookup_ofPairs_lastOfEach {K V : Type*} [DecidableEq K] {l : List (K × V)} {k : K}
    {v : V} : (AList.ofPairs l).lookup k = some v ↔ (k, v) ∈ Circom.Lib.lastOfEach Prod.fst l := by
  rw [AList.lookup_ofPairs_eq_find]
  induction l with
  | nil => simp [Circom.Lib.lastOfEach]
  | cons e l ih =>
    rw [List.reverse_cons, List.find?_append, Circom.Lib.lastOfEach_cons]
    by_cases hmem : e.1 ∈ l.map Prod.fst
    · rw [if_pos hmem, ← ih]
      by_cases hk : e.1 = k
      · have hsome : (l.reverse.find? fun e => e.1 = k).isSome := by
          obtain ⟨e', he', heq⟩ := List.mem_map.mp hmem
          rw [List.find?_isSome]
          exact ⟨e', List.mem_reverse.mpr he', by simp [heq, hk]⟩
        rw [Option.or_of_isSome hsome]
      · simp [hk]
    · rw [if_neg hmem, List.mem_cons, ← ih]
      by_cases hk : e.1 = k
      · have hnone : (l.reverse.find? fun e => e.1 = k) = none := by
          rw [List.find?_eq_none]
          intro e' he' heq
          simp only [decide_eq_true_eq] at heq
          exact hmem (List.mem_map.mpr ⟨e', List.mem_reverse.mp he', heq.trans hk.symm⟩)
        rw [hnone, ← hk]
        simp [Prod.ext_iff, eq_comm]
      · have hne : (k, v) ≠ e := fun h => hk (by rw [← h])
        simp [hk, hne]

/-!
## Ordered walks

Ordered sets and ordered maps of natural numbers are visited in increasing order of their keys. The
walk is a filter of a range, so that it computes.
-/

/-- The elements of a finite set of numbers in increasing order. -/
def Finset.ascending (s : Finset ℕ) : List ℕ := (List.range (s.sup id + 1)).filter (· ∈ s)

namespace Finset

@[simp] theorem mem_ascending {s : Finset ℕ} {n : ℕ} : n ∈ s.ascending ↔ n ∈ s := by
  simp only [ascending, List.mem_filter, List.mem_range, decide_eq_true_eq, and_iff_right_iff_imp]
  intro h
  have : n ≤ s.sup id := Finset.le_sup (f := id) h
  omega

theorem nodup_ascending (s : Finset ℕ) : s.ascending.Nodup := List.nodup_range.filter _

theorem pairwise_lt_ascending (s : Finset ℕ) : s.ascending.Pairwise (· < ·) :=
  List.pairwise_lt_range.filter _

@[simp] theorem toFinset_ascending (s : Finset ℕ) : s.ascending.toFinset = s := by
  ext n; simp

@[simp] theorem length_ascending (s : Finset ℕ) : s.ascending.length = s.card := by
  rw [← List.toFinset_card_of_nodup s.nodup_ascending, toFinset_ascending]

end Finset

namespace AList

open Circom.Lib (HashMap)

variable {V : Type*}

/-- The keys of a map in increasing order. -/
def ascendingKeys (m : HashMap ℕ V) : List ℕ := m.keys.toFinset.ascending

/-- The pairs of a map in increasing order of their keys. -/
def ascendingPairs (m : HashMap ℕ V) : List (ℕ × V) :=
  m.ascendingKeys.filterMap fun k => (m.lookup k).map fun v => (k, v)

@[simp] theorem mem_ascendingKeys {m : HashMap ℕ V} {k : ℕ} : k ∈ m.ascendingKeys ↔ k ∈ m := by
  simp [ascendingKeys, mem_keys]

theorem mem_ascendingPairs {m : HashMap ℕ V} {k : ℕ} {v : V} :
    (k, v) ∈ m.ascendingPairs ↔ m.lookup k = some v := by
  simp only [ascendingPairs, List.mem_filterMap, mem_ascendingKeys, Option.map_eq_some_iff,
    Prod.mk.injEq]
  constructor
  · rintro ⟨k', -, v', hv, rfl, rfl⟩; exact hv
  · intro h; exact ⟨k, mem_iff_exists_lookup.mpr ⟨v, h⟩, v, h, rfl, rfl⟩

theorem map_fst_ascendingPairs (m : HashMap ℕ V) : m.ascendingPairs.map Prod.fst = m.ascendingKeys := by
  have h : ∀ k ∈ m.ascendingKeys, ∃ v, m.lookup k = some v := fun k hk =>
    mem_iff_exists_lookup.mp (mem_ascendingKeys.mp hk)
  unfold ascendingPairs
  revert h
  generalize m.ascendingKeys = l
  intro h
  induction l with
  | nil => rfl
  | cons k l ih =>
    obtain ⟨v, hv⟩ := h k List.mem_cons_self
    rw [List.filterMap_cons, hv]
    simp [ih fun k' hk' => h k' (List.mem_cons_of_mem _ hk')]

theorem nodup_ascendingKeys (m : HashMap ℕ V) : m.ascendingKeys.Nodup := Finset.nodup_ascending _

end AList
