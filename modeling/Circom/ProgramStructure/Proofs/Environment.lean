import Circom.Lib.Scopes
import Circom.ProgramStructure.CircomEnvironment

/-!
# The operations on environments, entry by entry
-/

namespace Circom.ProgramStructure

open Circom.Ast (SignalType)
open Circom.Lib (HashMap Scopes)
open Circom.Lib.Scopes

/-! ## Unions -/

/-- The entry of a union. -/
def joined {V : Type} (mergeFunction : V → V → V) : Option V → Option V → Option V
  | some l, some r => some (mergeFunction l r)
  | some l, none => some l
  | none, r => r

section

variable {K V : Type} [DecidableEq K] (mergeFunction : V → V → V) (r : HashMap K V)

/-- The step of the loop over the left entries: an entry takes the one of the right side with it. -/
def unionStep (acc : HashMap K V × HashMap K V) (e : K × V) : HashMap K V × HashMap K V :=
  match acc.2.lookup e.1 with
  | some rv => (acc.1.insert e.1 (mergeFunction e.2 rv), acc.2.erase e.1)
  | none => (acc.1.insert e.1 e.2, acc.2)

theorem lookup_foldl_unionStep (l : List (K × V)) (hl : (l.map Prod.fst).Nodup) :
    ∀ k, (l.foldl (unionStep mergeFunction) (∅, r)).1.lookup k =
        (if k ∈ l.map Prod.fst then joined mergeFunction ((AList.ofPairs l).lookup k) (r.lookup k)
          else none) ∧
      (l.foldl (unionStep mergeFunction) (∅, r)).2.lookup k =
        if k ∈ l.map Prod.fst then none else r.lookup k := by
  induction l using List.reverseRecOn with
  | nil => intro k; simp
  | append_singleton l e ih =>
    obtain ⟨k', v⟩ := e
    intro k
    rw [List.map_append, List.nodup_append] at hl
    obtain ⟨hl, -, hdisjoint⟩ := hl
    have hk' : k' ∉ l.map Prod.fst := fun hmem => hdisjoint k' hmem k' (by simp) rfl
    have hr : (l.foldl (unionStep mergeFunction) (∅, r)).2.lookup k' = r.lookup k' := by
      rw [(ih hl k').2, if_neg hk']
    obtain ⟨ih1, ih2⟩ := ih hl k
    rw [List.foldl_append, List.foldl_cons, List.foldl_nil, AList.ofPairs_concat]
    by_cases hk : k = k'
    · subst hk
      rw [if_pos (by simp), if_pos (by simp), AList.lookup_insert, unionStep, hr]
      cases hentry : r.lookup k with
      | some rv => exact ⟨AList.lookup_insert _, AList.lookup_erase _ _⟩
      | none => exact ⟨AList.lookup_insert _, hr.trans hentry⟩
    · have hmem : k ∈ (l ++ [(k', v)]).map Prod.fst ↔ k ∈ l.map Prod.fst := by simp [hk]
      simp only [hmem]
      rw [AList.lookup_insert_ne hk, ← ih1, ← ih2, unionStep, hr]
      cases r.lookup k' with
      | some rv => exact ⟨AList.lookup_insert_ne hk, AList.lookup_erase_ne hk⟩
      | none => exact ⟨AList.lookup_insert_ne hk, rfl⟩

theorem lookup_foldl_insertMissing (l : List (K × V)) (hl : (l.map Prod.fst).Nodup)
    (result : HashMap K V) (k : K) :
    (l.foldl (fun (result : HashMap K V) e =>
      if e.1 ∈ result then result else result.insert e.1 e.2) result).lookup k =
      (result.lookup k).or ((AList.ofPairs l).lookup k) := by
  induction l using List.reverseRecOn generalizing k with
  | nil => simp
  | append_singleton l e ih =>
    obtain ⟨k', v⟩ := e
    rw [List.map_append, List.nodup_append] at hl
    obtain ⟨hl, -, hdisjoint⟩ := hl
    have hk' : k' ∉ AList.ofPairs l := by
      rw [AList.mem_ofPairs]
      exact fun hmem => hdisjoint k' hmem k' (by simp) rfl
    have hat := ih hl k'
    rw [AList.lookup_eq_none.mpr hk', Option.or_none] at hat
    rw [List.foldl_append, List.foldl_cons, List.foldl_nil, AList.ofPairs_concat]
    by_cases hk : k = k'
    · subst hk
      rw [AList.lookup_insert]
      split
      · next hmem =>
        rw [hat]
        rw [← AList.lookup_isSome, hat] at hmem
        obtain ⟨v', hv'⟩ := Option.isSome_iff_exists.mp hmem
        rw [hv', Option.some_or]
      · next hmem =>
        rw [← AList.lookup_eq_none, hat] at hmem
        rw [AList.lookup_insert, hmem, Option.none_or]
    · rw [AList.lookup_insert_ne hk, ← ih hl k]
      split
      · rfl
      · exact AList.lookup_insert_ne hk

theorem lookup_hashmapUnion (l : HashMap K V) (k : K) :
    (hashmapUnion l r mergeFunction).lookup k = joined mergeFunction (l.lookup k) (r.lookup k) := by
  have hkeys (m : HashMap K V) : (m.pairs.map Prod.fst).Nodup := by
    rw [AList.pairs_map_fst]
    exact AList.keys_nodup m
  have hunion : hashmapUnion l r mergeFunction =
      (l.pairs.foldl (unionStep mergeFunction) (∅, r)).2.pairs.foldl (fun (result : HashMap K V) e =>
        if e.1 ∈ result then result else result.insert e.1 e.2)
        (l.pairs.foldl (unionStep mergeFunction) (∅, r)).1 := rfl
  obtain ⟨h1, h2⟩ := lookup_foldl_unionStep mergeFunction r l.pairs (hkeys l) k
  rw [hunion, lookup_foldl_insertMissing _ (hkeys _), AList.ofPairs_pairs_lookup, h1, h2,
    AList.ofPairs_pairs_lookup, AList.pairs_map_fst]
  split
  · exact Option.or_none
  · next hmem =>
    rw [← AList.mem_keys, ← AList.lookup_eq_none] at hmem
    rw [hmem, Option.none_or]
    rfl

end

/-! ## Blocks -/

namespace Variables

variable {VC : Type} {blocks : Variables VC}

theorem getVariable_eq_some {name : String} {content : VC} :
    blocks.getVariable name = some content ↔
      ∃ i, Innermost blocks i name ∧ entry blocks i name = some content := by
  induction blocks with
  | nil => simp [getVariable]
  | cons block blocks ih =>
    rw [getVariable, List.findSome?_cons]
    cases hlookup : block.lookup name with
    | some v =>
      have hmem : name ∈ block := AList.lookup_isSome.mp (by rw [hlookup]; rfl)
      constructor
      · rintro ⟨rfl⟩
        exact ⟨0, innermost_zero_cons.mpr hmem, hlookup⟩
      · rintro ⟨i, hi, hentry⟩
        have hzero : i = 0 := hi.unique (innermost_zero_cons.mpr hmem)
        subst hzero
        exact hlookup.symm.trans hentry
    | none =>
      have hmem : name ∉ block := AList.lookup_eq_none.mp hlookup
      refine Iff.trans ih ⟨?_, ?_⟩
      · rintro ⟨i, hi, hentry⟩
        exact ⟨i + 1, innermost_succ_cons.mpr ⟨hmem, hi⟩, hentry⟩
      · rintro ⟨i, hi, hentry⟩
        cases i with
        | zero => exact absurd (innermost_zero_cons.mp hi) hmem
        | succ i => exact ⟨i, (innermost_succ_cons.mp hi).2, hentry⟩

/-- A variable has the entry of the block in which it is found. -/
theorem getVariable_eq_entry {i : ℕ} {name : String} (h : Innermost blocks i name) :
    blocks.getVariable name = entry blocks i name := by
  obtain ⟨v, hv⟩ := Option.isSome_iff_exists.mp h.1
  rw [hv]
  exact getVariable_eq_some.mpr ⟨i, h, hv⟩

theorem isSome_getVariable {name : String} :
    (blocks.getVariable name).isSome ↔ ∃ i, Innermost blocks i name := by
  rw [Option.isSome_iff_exists]
  constructor
  · rintro ⟨v, hv⟩
    obtain ⟨i, hi, -⟩ := getVariable_eq_some.mp hv
    exact ⟨i, hi⟩
  · rintro ⟨i, hi⟩
    rw [getVariable_eq_entry hi]
    exact Option.isSome_iff_exists.mp hi.1

theorem length_setVariable (name : String) (content : VC) :
    (blocks.setVariable name content).length = blocks.length := by
  induction blocks with
  | nil => rfl
  | cons block blocks ih =>
    rw [setVariable]
    split
    · rfl
    · rw [List.length_cons, List.length_cons, ih]

open Classical in
theorem entry_setVariable (name : String) (content : VC) (i : ℕ) (name' : String) :
    entry (blocks.setVariable name content) i name' =
      if name' = name ∧ Innermost blocks i name then some content else entry blocks i name' := by
  induction blocks generalizing i with
  | nil => simp [setVariable, Innermost]
  | cons block blocks ih =>
    rw [setVariable]
    split
    · next hmem =>
      cases i with
      | zero =>
        rw [entry_cons_zero, entry_cons_zero]
        by_cases hname : name' = name
        · rw [if_pos ⟨hname, innermost_zero_cons.mpr hmem⟩, hname, AList.lookup_insert]
        · rw [if_neg (fun h => hname h.1), AList.lookup_insert_ne hname]
      | succ i =>
        rw [entry_cons_succ, entry_cons_succ, if_neg]
        rintro ⟨-, hinner⟩
        exact (innermost_succ_cons.mp hinner).1 hmem
    · next hmem =>
      cases i with
      | zero =>
        rw [entry_cons_zero, entry_cons_zero, if_neg]
        rintro ⟨-, hinner⟩
        exact hmem (innermost_zero_cons.mp hinner)
      | succ i =>
        rw [entry_cons_succ, entry_cons_succ, ih]
        simp only [innermost_succ_cons, hmem, not_false_eq_true, true_and]

theorem entry_addVariable (hblocks : blocks ≠ []) (name : String) (content : VC) (i : ℕ)
    (name' : String) :
    entry (blocks.addVariable name content) i name' =
      if i = 0 ∧ name' = name then some content else entry blocks i name' := by
  cases blocks with
  | nil => exact absurd rfl hblocks
  | cons block blocks =>
    cases i with
    | zero =>
      by_cases hname : name' = name
      · rw [if_pos ⟨rfl, hname⟩, hname]
        exact AList.lookup_insert block
      · rw [if_neg (fun h => hname h.2)]
        exact AList.lookup_insert_ne hname
    | succ i => rfl

theorem length_addVariable (name : String) (content : VC) :
    (blocks.addVariable name content).length = blocks.length := by
  cases blocks <;> rfl

theorem length_merge {left right : Variables VC} (hlength : left.length = right.length)
    (mergeFunction : VC → VC → VC) : (left.merge right mergeFunction).length = left.length := by
  rw [merge, List.length_zipWith, hlength, Nat.min_self]

theorem entry_merge {left right : Variables VC} (hlength : left.length = right.length)
    (mergeFunction : VC → VC → VC) (i : ℕ) (name : String) :
    entry (left.merge right mergeFunction) i name =
      joined mergeFunction (entry left i name) (entry right i name) := by
  induction left generalizing right i with
  | nil =>
    cases right with
    | nil => rfl
    | cons block right => simp at hlength
  | cons block left ih =>
    cases right with
    | nil => simp at hlength
    | cons block' right =>
      cases i with
      | zero => exact lookup_hashmapUnion mergeFunction block' block name
      | succ i => exact ih (Nat.succ.inj hlength) i

theorem hasVariable_eq_isSome (name : String) : blocks.hasVariable name = (blocks.getVariable name).isSome := by
  induction blocks with
  | nil => rfl
  | cons block blocks ih =>
    unfold hasVariable getVariable at *
    rw [List.any_cons, List.findSome?_cons]
    cases hlookup : block.lookup name with
    | some v =>
      have hmem : name ∈ block := AList.lookup_isSome.mp (by rw [hlookup]; rfl)
      simp [hmem]
    | none =>
      have hmem : name ∉ block := AList.lookup_eq_none.mp hlookup
      simp [hmem, ih]

end Variables

/-! ## Signals, buses and components -/

theorem lookup_extend {V : Type} (left right : HashMap String V) (name : String) :
    (extend left right).lookup name = (right.lookup name).or (left.lookup name) := by
  have hfold : ∀ (l : List (String × V)) (table : HashMap String V),
      (l.foldl (fun (table : HashMap String V) e => table.insert e.1 e.2) table).lookup name =
        ((AList.ofPairs l).lookup name).or (table.lookup name) := by
    intro l table
    induction l using List.reverseRecOn with
    | nil => simp
    | append_singleton l e ih =>
      rw [List.foldl_append, List.foldl_cons, List.foldl_nil, AList.ofPairs_concat]
      by_cases hname : name = e.1
      · rw [hname, AList.lookup_insert, AList.lookup_insert, Option.some_or]
      · rw [AList.lookup_insert_ne hname, AList.lookup_insert_ne hname, ih]
  unfold extend
  rw [hfold, AList.ofPairs_pairs_lookup]

namespace Wires

variable {C : Type} (wires : Wires C)

def table : SignalType → HashMap String C
  | .input => wires.inputs
  | .output => wires.outputs
  | .intermediate => wires.intermediates

theorem lookup_table_add (type type' : SignalType) (name name' : String) (content : C) :
    ((wires.add type name content).table type').lookup name' =
      if name' = name ∧ type' = type then some content else (wires.table type').lookup name' := by
  by_cases htype : type' = type
  · subst htype
    by_cases hname : name' = name
    · subst hname
      cases type' <;> simp [add, table]
    · cases type' <;> simp [add, table, hname]
  · cases type <;> cases type' <;> first | exact absurd rfl htype | simp [add, table]

theorem get_eq_or (name : String) :
    wires.get name = (((wires.table .input).lookup name).or ((wires.table .output).lookup name)).or
      ((wires.table .intermediate).lookup name) := by
  have hnone (table : HashMap String C) (h : name ∉ table) : table.lookup name = none := AList.lookup_eq_none.mpr h
  have hsome (table : HashMap String C) (h : name ∈ table) : ∃ v, table.lookup name = some v :=
    Option.isSome_iff_exists.mp (AList.lookup_isSome.mpr h)
  unfold get table
  by_cases hin : name ∈ wires.inputs
  · obtain ⟨v, hv⟩ := hsome _ hin
    simp [hin, hv]
  by_cases hout : name ∈ wires.outputs
  · obtain ⟨v, hv⟩ := hsome _ hout
    simp [hin, hout, hnone _ hin, hv]
  by_cases hinter : name ∈ wires.intermediates
  · simp [hin, hout, hinter, hnone _ hin, hnone _ hout]
  · simp [hin, hout, hinter, hnone]

theorem has_eq_isSome (name : String) : wires.has name = (wires.get name).isSome := by
  have hmem (table : HashMap String C) : decide (name ∈ table) = (table.lookup name).isSome := by
    rw [Bool.eq_iff_iff, decide_eq_true_iff]
    exact AList.lookup_isSome.symm
  rw [get_eq_or]
  unfold has table
  simp only [hmem, Option.isSome_or]

end Wires

end Circom.ProgramStructure
