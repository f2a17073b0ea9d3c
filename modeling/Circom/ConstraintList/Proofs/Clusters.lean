import Circom.Algebra.Proofs.Constraint
import Circom.ConstraintList.ConstraintSimplification
import Circom.Lib.ForwardForest
import Mathlib.Data.Finset.Union
import Mathlib.Data.List.ReduceOption
import Mathlib.Logic.Relation

/-!
# Clusters are the connected components

`build_clusters` divides the constraints among clusters that share no signal, each cluster hangs together by
shared signals, and the counter of a cluster is the number of its signals.
-/

namespace Circom.ConstraintList

open Circom.Algebra (Constraint)
open Circom.Lib (ForwardForest HashOrder foldlM_invariant)
open Relation (ReflTransGen)

variable {c : C} {d i r s : ℕ}

/-! ## Finding the root -/

section Paths

variable {path : ClusterPath} {root : ℕ → ℕ}

theorem followJumps_spec (h : ForwardForest path root) (hi : i < path.length) :
    ∀ fuel jumps, path.length < fuel + i → ∃ jumps', followJumps path fuel i jumps =
      some (root i, jumps') ∧ ∀ k ∈ jumps', k ∈ jumps ∨ k < path.length ∧ root k = root i := by
  refine h.induction (P := fun i => ∀ fuel jumps, path.length < fuel + i →
    ∃ jumps', followJumps path fuel i jumps = some (root i, jumps') ∧
      ∀ k ∈ jumps', k ∈ jumps ∨ k < path.length ∧ root k = root i) ?_ ?_ hi
  · intro i hget fuel jumps hfuel
    have hi := (List.getElem?_eq_some_iff.mp hget).1
    obtain ⟨fuel, rfl⟩ : ∃ n, fuel = n + 1 := ⟨fuel - 1, by omega⟩
    refine ⟨jumps, ?_, fun k hk => Or.inl hk⟩
    rw [followJumps, hget, h.root_self i hget]
    simp
  · intro i j hget hlt ih fuel jumps hfuel
    have hi := (List.getElem?_eq_some_iff.mp hget).1
    have hne : i ≠ j := by omega
    obtain ⟨fuel, rfl⟩ : ∃ n, fuel = n + 1 := ⟨fuel - 1, by omega⟩
    obtain ⟨jumps', hjumps', hmem⟩ := ih fuel (i :: jumps) (by omega)
    have hroot := h.root_next i j hget
    refine ⟨jumps', ?_, ?_⟩
    · rw [followJumps, hget, ← hroot, ← hjumps']
      simp [hne]
    · intro k hk
      rw [← hroot]
      rcases hmem k hk with hk | hk
      · rcases List.mem_cons.mp hk with rfl | hk
        · exact Or.inr ⟨hi, hroot.symm⟩
        · exact Or.inl hk
      · exact Or.inr hk

theorem shrinkJumpsAndFind_spec (h : ForwardForest path root) (hi : i < path.length) :
    ∃ path', shrinkJumpsAndFind path i = some (path', root i) ∧ ForwardForest path' root ∧
      path'.length = path.length := by
  obtain ⟨jumps, hjumps, hmem⟩ := followJumps_spec h hi (path.length + 1) [] (by omega)
  have hmem' : ∀ k ∈ jumps, k < path.length ∧ root k = root i := by
    intro k hk
    exact (hmem k hk).resolve_left (List.not_mem_nil)
  refine ⟨_, by rw [shrinkJumpsAndFind, hjumps]; rfl, ?_⟩
  clear hjumps hmem
  induction jumps generalizing path with
  | nil => exact ⟨h, rfl⟩
  | cons k jumps ih =>
    obtain ⟨hk, hroot⟩ := hmem' k List.mem_cons_self
    have hset := h.shrink hk
    rw [hroot] at hset
    rw [List.foldl_cons]
    have hlen : (path.set k (root i)).length = path.length := List.length_set
    obtain ⟨h1, h2⟩ := ih hset (by rw [hlen]; exact hi) (by
      intro k' hk'
      rw [hlen]
      exact hmem' k' (List.mem_cons_of_mem k hk'))
    exact ⟨h1, h2.trans hlen⟩

/-- Two roots are merged, or a root is merged with nothing. -/
theorem arenaMerge_spec (h : ForwardForest path root) {arena : ClusterArena} {src dest : ℕ}
    (hlen : arena.length = path.length) (hsrc : src < path.length) (hdest : dest < path.length)
    (hroot : root dest = dest) (hle : ∀ i < path.length, i ≤ dest) {c0 c1 : Cluster}
    (h0 : arena[dest]? = some (some c0))
    (h1 : if root src = dest then c1 = {} else arena[root src]? = some (some c1))
    (hpos : 0 < c0.numSignals) :
    ∃ arena' path', arenaMerge arena path src dest = some (arena', path') ∧
      ForwardForest path' (fun i => if root i = root src then dest else root i) ∧
      path'.length = path.length ∧ arena'.length = arena.length ∧
      (∀ i < arena.length, arena'[i]? =
        if i = dest then some (some ⟨c0.constraints ++ c1.constraints, c0.numSignals + c1.numSignals - 1⟩)
        else if i = root src then some none else arena[i]?) := by
  obtain ⟨path1, hpath1, hforest1, hlen1⟩ := shrinkJumpsAndFind_spec h hdest
  obtain ⟨path2, hpath2, hforest2, hlen2⟩ :=
    shrinkJumpsAndFind_spec hforest1 (i := src) (by rw [hlen1]; exact hsrc)
  have hsrcLt : root src < path.length := h.root_lt hsrc
  rw [hroot] at hpath1
  -- what is left at the root of `src` after the cluster of `dest` was taken out
  have hc1 : (arena.set dest none)[root src]? =
      some (if root src = dest then none else some c1) := by
    by_cases heq : root src = dest
    · rw [if_pos heq, heq, List.getElem?_set_self (by rw [hlen]; exact hdest)]
    · rw [if_neg heq] at h1
      rw [if_neg heq, List.getElem?_set_ne (Ne.symm heq), h1]
  have hgetD : ((if root src = dest then none else some c1 : Option Cluster).getD {}) = c1 := by
    by_cases heq : root src = dest
    · rw [if_pos heq] at h1
      rw [if_pos heq, h1]
      rfl
    · rw [if_neg heq]
      rfl
  have hmerge : Cluster.merge c0 c1 =
      some ⟨c0.constraints ++ c1.constraints, c0.numSignals + c1.numSignals - 1⟩ := by
    rw [Cluster.merge, if_neg (by omega)]
  refine ⟨((arena.set dest none).set (root src) none).set dest
    (some ⟨c0.constraints ++ c1.constraints, c0.numSignals + c1.numSignals - 1⟩),
    path2.set (root src) dest, ?_, hforest2.link (h.root_root src) hroot ?_ ?_, ?_, ?_, ?_⟩
  · simp only [arenaMerge, hpath1, hpath2, h0, hc1, Option.bind_eq_bind, Option.bind_some, hgetD,
      Option.getD_some, hmerge]
  · exact hle _ hsrcLt
  · rw [hlen2, hlen1]
    exact hdest
  · rw [List.length_set, hlen2, hlen1]
  · simp only [List.length_set]
  · intro i hi
    by_cases hid : i = dest
    · subst hid
      rw [if_pos rfl, List.getElem?_set_self (by simp only [List.length_set]; exact hi)]
    · rw [if_neg hid, List.getElem?_set_ne (Ne.symm hid)]
      by_cases his : i = root src
      · rw [if_pos his, ← his, List.getElem?_set_self (by rw [List.length_set]; exact hi)]
      · rw [if_neg his, List.getElem?_set_ne (Ne.symm his), List.getElem?_set_ne (Ne.symm hid)]

end Paths

/-! ## The trees -/

section Trees

/-- The signals of the `i`-th constraint. -/
def signalsAt (items : List C) (i : ℕ) : Finset ℕ :=
  ((items[i]?).map fun c => c.takeClonedSignals).getD ∅

/-- The constraints of the tree of `r`. -/
def members (items : List C) (root : ℕ → ℕ) (r : ℕ) : List C :=
  (items.zipIdx.filter fun e => root e.2 = r).map Prod.fst

/-- The signals of the tree of `r`. -/
def treeSignals (items : List C) (root : ℕ → ℕ) (r : ℕ) : Finset ℕ :=
  ((Finset.range items.length).filter fun i => root i = r).biUnion (signalsAt items)

/-- The signals of the tree of `d` without the constraint `d` itself. -/
def otherSignals (items : List C) (root : ℕ → ℕ) (d : ℕ) : Finset ℕ :=
  ((Finset.range items.length).filter fun i => root i = d ∧ i ≠ d).biUnion (signalsAt items)

/-- The signals of the `i`-th constraint that are in the table, while those in `todo` are missing for the
constraint `d`. -/
def joinedSignals (items : List C) (d : ℕ) (todo : Finset ℕ) (i : ℕ) : Finset ℕ :=
  if i = d then signalsAt items i \ todo else signalsAt items i

/-- Two constraints share a signal. -/
def SharesAt (items : List C) (i j : ℕ) : Prop := ∃ s, s ∈ signalsAt items i ∧ s ∈ signalsAt items j

instance (items : List C) : Std.Symm (SharesAt items) :=
  ⟨fun _ _ ⟨s, hi, hj⟩ => ⟨s, hj, hi⟩⟩

variable {items : List C} {root : ℕ → ℕ}

theorem signalsAt_of_getElem? (h : items[i]? = some c) : signalsAt items i = c.takeClonedSignals := by
  simp [signalsAt, h]

theorem lt_of_mem_signalsAt (h : s ∈ signalsAt items i) : i < items.length := by
  by_contra hlt
  rw [signalsAt, List.getElem?_eq_none (by omega)] at h
  exact absurd h (Finset.notMem_empty s)

theorem mem_treeSignals : s ∈ treeSignals items root r ↔ ∃ i, root i = r ∧ s ∈ signalsAt items i := by
  simp only [treeSignals, Finset.mem_biUnion, Finset.mem_filter, Finset.mem_range]
  constructor
  · rintro ⟨i, ⟨-, hr⟩, hs⟩
    exact ⟨i, hr, hs⟩
  · rintro ⟨i, hr, hs⟩
    exact ⟨i, ⟨lt_of_mem_signalsAt hs, hr⟩, hs⟩

theorem mem_otherSignals : s ∈ otherSignals items root d ↔ ∃ i, root i = d ∧ i ≠ d ∧ s ∈ signalsAt items i := by
  simp only [otherSignals, Finset.mem_biUnion, Finset.mem_filter, Finset.mem_range]
  constructor
  · rintro ⟨i, ⟨-, hr, hd⟩, hs⟩
    exact ⟨i, hr, hd, hs⟩
  · rintro ⟨i, hr, hd, hs⟩
    exact ⟨i, ⟨lt_of_mem_signalsAt hs, hr, hd⟩, hs⟩

theorem mem_joinedSignals {todo : Finset ℕ} :
    s ∈ joinedSignals items d todo i ↔ s ∈ signalsAt items i ∧ (i = d → s ∉ todo) := by
  unfold joinedSignals
  by_cases h : i = d
  · simp [h]
  · simp [h]

/-- Joining the tree of `r` to that of `d` puts the members together. -/
theorem members_join (items : List C) (root : ℕ → ℕ) (hne : r ≠ d) :
    (members items (fun i => if root i = r then d else root i) d).Perm
      (members items root d ++ members items root r) := by
  rw [members, members, members, ← List.map_append]
  refine List.Perm.map _ ?_
  induction items.zipIdx with
  | nil => exact List.Perm.nil
  | cons e l ih =>
    simp only [List.filter_cons]
    by_cases hr : root e.2 = r
    · have hd : root e.2 ≠ d := by
        rw [hr]
        exact hne
      simp only [hr, if_true, decide_true, hne, decide_false, Bool.false_eq_true, if_false]
      exact (ih.cons e).trans List.perm_middle.symm
    · by_cases hd : root e.2 = d
      · simp only [hd, if_false, decide_true, if_true, hne.symm, decide_false, Bool.false_eq_true,
          List.cons_append]
        exact ih.cons e
      · simp only [hr, hd, if_false, decide_false, Bool.false_eq_true]
        exact ih

theorem members_join_of_ne (items : List C) (root : ℕ → ℕ) (hr : i ≠ r) (hd : i ≠ d) :
    members items (fun i => if root i = r then d else root i) i = members items root i := by
  unfold members
  congr 1
  refine List.filter_congr ?_
  intro e _
  by_cases h : root e.2 = r
  · simp [h, hd.symm, hr.symm]
  · simp [h]

/-- The other trees keep their signals. -/
theorem treeSignals_join_of_ne (items : List C) (root : ℕ → ℕ) (hr : i ≠ r) (hd : i ≠ d) :
    treeSignals items (fun i => if root i = r then d else root i) i = treeSignals items root i := by
  ext s
  simp only [mem_treeSignals]
  refine exists_congr fun k => and_congr_left fun _ => ?_
  by_cases h : root k = r
  · simp [h, hd.symm, hr.symm]
  · simp [h]

end Trees

/-! ## Joining the signals of a constraint -/

/-- The tables while the signals `todo` of the constraint `d` are still to be joined. -/
structure Joining (noLinear : ℕ) (items : List C) (d : ℕ) (todo : Finset ℕ) (root : ℕ → ℕ)
    (clusters : Clusters) : Prop where
  forest : ForwardForest clusters.clusterToCurrent root
  path_length : clusters.clusterToCurrent.length = items.length
  arena_length : clusters.arena.length = items.length
  length_le : items.length ≤ noLinear
  bounded : ∀ i, ∀ s ∈ signalsAt items i, s < clusters.signalToCluster.length
  recorded : ∀ s < clusters.signalToCluster.length, ∃ k, clusters.signalToCluster[s]? = some k ∧
    ((k = noLinear ∧ ∀ i, s ∉ joinedSignals items d todo i) ∨
      (k < items.length ∧ s ∈ joinedSignals items d todo k ∧
        ∀ i, s ∈ joinedSignals items d todo i → root i = root k))
  cluster : ∀ i < items.length, root i = i → ∃ cluster, clusters.arena[i]? = some (some cluster) ∧
    cluster.constraints.Perm (members items root i) ∧
    cluster.numSignals = (treeSignals items root i).card +
      if i = d then (todo ∩ otherSignals items root d).card else 0
  vacant : ∀ i < items.length, root i ≠ i → clusters.arena[i]? = some none
  linked : ∀ i < items.length, ∀ j < items.length, root i = root j → ReflTransGen (SharesAt items) i j

namespace Joining

variable {noLinear d s : ℕ} {items : List C} {todo : Finset ℕ} {root : ℕ → ℕ} {clusters : Clusters}

/-- Constraints that share a signal of the table are in one tree. -/
theorem root_eq (h : Joining noLinear items d todo root clusters) {j : ℕ} (hi : s ∈ joinedSignals items d todo i)
    (hj : s ∈ joinedSignals items d todo j) : root i = root j := by
  have hlt := h.bounded i s (mem_joinedSignals.mp hi).1
  obtain ⟨k, -, ⟨-, hnone⟩ | ⟨-, -, hroot⟩⟩ := h.recorded s hlt
  · exact absurd hi (hnone i)
  · rw [hroot i hi, hroot j hj]

theorem root_last (h : Joining noLinear items d todo root clusters) (hd : d + 1 = items.length) :
    root d = d := by
  have h1 := h.forest.le_root d
  have h2 := h.forest.root_lt (i := d) (by rw [h.path_length]; omega)
  rw [h.path_length] at h2
  omega

theorem mem_joinedSignals_erase {t : ℕ} (hs : s ∈ todo) (hsub : todo ⊆ signalsAt items d) :
    t ∈ joinedSignals items d (todo.erase s) i ↔
      t ∈ joinedSignals items d todo i ∨ i = d ∧ t = s := by
  simp only [mem_joinedSignals, Finset.mem_erase, not_and]
  constructor
  · rintro ⟨hsig, himp⟩
    by_cases hi : i = d
    · by_cases ht : t ∈ todo
      · right
        exact ⟨hi, by_contra fun hne => himp hi hne ht⟩
      · exact Or.inl ⟨hsig, fun _ => ht⟩
    · exact Or.inl ⟨hsig, fun h => absurd h hi⟩
  · rintro (⟨hsig, himp⟩ | ⟨rfl, rfl⟩)
    · exact ⟨hsig, fun hi _ ht => himp hi ht⟩
    · exact ⟨hsub hs, fun _ hne => absurd rfl hne⟩

/-- The signal occurs for the first time. -/
theorem record (h : Joining noLinear items d todo root clusters) (hd : d + 1 = items.length)
    (hs : s ∈ todo) (hsub : todo ⊆ signalsAt items d)
    (hnew : ∀ i, s ∉ joinedSignals items d todo i) :
    Joining noLinear items d (todo.erase s) root
      { clusters with signalToCluster := clusters.signalToCluster.set s d } := by
  have hslt := h.bounded d s (hsub hs)
  -- a signal that occurs for the first time is in no other constraint of the tree
  have hother : s ∉ otherSignals items root d := by
    intro hmem
    obtain ⟨i, -, hne, hi⟩ := mem_otherSignals.mp hmem
    exact hnew i (mem_joinedSignals.mpr ⟨hi, fun heq => absurd heq hne⟩)
  have hinter : todo.erase s ∩ otherSignals items root d = todo ∩ otherSignals items root d := by
    rw [Finset.erase_inter, Finset.erase_eq_of_notMem]
    exact fun hmem => hother (Finset.mem_inter.mp hmem).2
  refine ⟨h.forest, h.path_length, h.arena_length, h.length_le, ?_, ?_, ?_, h.vacant, h.linked⟩
  · intro i t ht
    rw [List.length_set]
    exact h.bounded i t ht
  · intro t ht
    rw [List.length_set] at ht
    simp only [mem_joinedSignals_erase hs hsub]
    by_cases hts : t = s
    · subst hts
      refine ⟨d, List.getElem?_set_self hslt, Or.inr ⟨by omega, Or.inr ⟨rfl, rfl⟩, ?_⟩⟩
      rintro i (hi | ⟨rfl, -⟩)
      · exact absurd hi (hnew i)
      · rfl
    · obtain ⟨k, hk, hcases⟩ := h.recorded t ht
      refine ⟨k, by rw [List.getElem?_set_ne (Ne.symm hts)]; exact hk, ?_⟩
      simpa [hts] using hcases
  · intro i hi hroot
    obtain ⟨cluster, hget, hperm, hnum⟩ := h.cluster i hi hroot
    exact ⟨cluster, hget, hperm, by rw [hnum, hinter]⟩

/-- The counters of two trees that share exactly the signals of `U` in `todo`. -/
theorem card_join {T U O : Finset ℕ} (hTU : T ∩ U = todo ∩ U) (hOU : Disjoint O U) (hs : s ∈ todo)
    (hsU : s ∈ U) :
    (T ∪ U).card + (todo.erase s ∩ (O ∪ U)).card = (T.card + (todo ∩ O).card) + U.card - 1 := by
  have hsO : s ∉ O := fun hO => Finset.disjoint_left.mp hOU hO hsU
  have hsplit : todo.erase s ∩ (O ∪ U) = todo ∩ O ∪ (todo ∩ U).erase s := by
    ext t
    simp only [Finset.mem_inter, Finset.mem_erase, Finset.mem_union]
    constructor
    · rintro ⟨⟨hne, ht⟩, hO | hU⟩
      · exact Or.inl ⟨ht, hO⟩
      · exact Or.inr ⟨hne, ht, hU⟩
    · rintro (⟨ht, hO⟩ | ⟨hne, ht, hU⟩)
      · refine ⟨⟨?_, ht⟩, Or.inl hO⟩
        rintro rfl
        exact hsO hO
      · exact ⟨⟨hne, ht⟩, Or.inr hU⟩
  have hdisjoint : Disjoint (todo ∩ O) ((todo ∩ U).erase s) := by
    refine Finset.disjoint_of_subset_left Finset.inter_subset_right ?_
    exact Finset.disjoint_of_subset_right ((Finset.erase_subset s _).trans Finset.inter_subset_right)
      hOU
  have hmem : s ∈ todo ∩ U := Finset.mem_inter.mpr ⟨hs, hsU⟩
  have hpos := Finset.card_pos.mpr ⟨s, hmem⟩
  have hcard := Finset.card_union_add_card_inter T U
  rw [hTU] at hcard
  rw [hsplit, Finset.card_union_of_disjoint hdisjoint, Finset.card_erase_of_mem hmem]
  omega

section Merge

variable {k : ℕ}

/-- The signals that the tree of `k` shares with the tree of `d` are still to be joined. -/
theorem tree_inter (h : Joining noLinear items d todo root clusters) (hroot : root d = d)
    (hsub : todo ⊆ signalsAt items d) (hne : root k ≠ d) :
    treeSignals items root d ∩ treeSignals items root (root k) =
      todo ∩ treeSignals items root (root k) := by
  ext t
  simp only [Finset.mem_inter, and_congr_left_iff]
  intro ht
  obtain ⟨j, hj, htj⟩ := mem_treeSignals.mp ht
  have hjd : j ≠ d := by
    rintro rfl
    exact hne (hj.symm.trans hroot)
  have htj' : t ∈ joinedSignals items d todo j :=
    mem_joinedSignals.mpr ⟨htj, fun heq => absurd heq hjd⟩
  constructor
  · intro hd
    obtain ⟨i, hi, hti⟩ := mem_treeSignals.mp hd
    by_contra hnot
    have := h.root_eq (mem_joinedSignals.mpr ⟨hti, fun _ => hnot⟩) htj'
    exact hne (by rw [← hj, ← this, hi])
  · intro htodo
    exact mem_treeSignals.mpr ⟨d, hroot, hsub htodo⟩

theorem disjoint_otherSignals (h : Joining noLinear items d todo root clusters) (hroot : root d = d)
    (hne : root k ≠ d) : Disjoint (otherSignals items root d) (treeSignals items root (root k)) := by
  rw [Finset.disjoint_left]
  intro t ht htk
  obtain ⟨i, hi, hid, hti⟩ := mem_otherSignals.mp ht
  obtain ⟨j, hj, htj⟩ := mem_treeSignals.mp htk
  have hjd : j ≠ d := by
    rintro rfl
    exact hne (hj.symm.trans hroot)
  have := h.root_eq (mem_joinedSignals.mpr ⟨hti, fun heq => absurd heq hid⟩)
    (mem_joinedSignals.mpr ⟨htj, fun heq => absurd heq hjd⟩)
  exact hne (by rw [← hj, ← this, hi])

/-- The counter of the tree of `d` after the tree of `k` has been joined to it. -/
theorem count_join (h : Joining noLinear items d todo root clusters) (hroot : root d = d)
    (hs : s ∈ todo) (hsub : todo ⊆ signalsAt items d) (hkd : k ≠ d) (hsk : s ∈ signalsAt items k)
    {c0 c1 : Cluster}
    (h0 : c0.numSignals = (treeSignals items root d).card + (todo ∩ otherSignals items root d).card)
    (h1 : c1.numSignals = if root k = d then 0 else (treeSignals items root (root k)).card) :
    let root' := fun i => if root i = root k then d else root i
    c0.numSignals + c1.numSignals - 1 =
      (treeSignals items root' d).card + (todo.erase s ∩ otherSignals items root' d).card := by
  intro root'
  by_cases heq : root k = d
  · -- the signal leaves `todo`, and nothing else changes
    have hroot' : root' = root := by
      funext i
      show (if root i = root k then d else root i) = root i
      split_ifs with hi
      · rw [hi, heq]
      · rfl
    have hmem : s ∈ todo ∩ otherSignals items root d :=
      Finset.mem_inter.mpr ⟨hs, mem_otherSignals.mpr ⟨k, heq, hkd, hsk⟩⟩
    have hpos := Finset.card_pos.mpr ⟨s, hmem⟩
    rw [hroot', h0, h1, if_pos heq, Finset.erase_inter, Finset.card_erase_of_mem hmem]
    omega
  · have htree : treeSignals items root' d =
        treeSignals items root d ∪ treeSignals items root (root k) := by
      ext t
      simp only [Finset.mem_union, mem_treeSignals]
      constructor
      · rintro ⟨i, hi, ht⟩
        by_cases hik : root i = root k
        · exact Or.inr ⟨i, hik, ht⟩
        · simp only [root', hik, if_false] at hi
          exact Or.inl ⟨i, hi, ht⟩
      · rintro (⟨i, hi, ht⟩ | ⟨i, hi, ht⟩)
        · exact ⟨i, by simp [root', hi], ht⟩
        · exact ⟨i, by simp [root', hi], ht⟩
    have hother : otherSignals items root' d =
        otherSignals items root d ∪ treeSignals items root (root k) := by
      ext t
      simp only [Finset.mem_union, mem_otherSignals, mem_treeSignals]
      constructor
      · rintro ⟨i, hi, hid, ht⟩
        by_cases hik : root i = root k
        · exact Or.inr ⟨i, hik, ht⟩
        · simp only [root', hik, if_false] at hi
          exact Or.inl ⟨i, hi, hid, ht⟩
      · rintro (⟨i, hi, hid, ht⟩ | ⟨i, hi, ht⟩)
        · exact ⟨i, by simp [root', hi], hid, ht⟩
        · refine ⟨i, by simp [root', hi], ?_, ht⟩
          rintro rfl
          exact heq (hi.symm.trans hroot)
    have hsU : s ∈ treeSignals items root (root k) := mem_treeSignals.mpr ⟨k, rfl, hsk⟩
    rw [htree, hother, card_join (h.tree_inter hroot hsub heq) (h.disjoint_otherSignals hroot heq)
      hs hsU, h0, h1, if_neg heq]

/-- The tree of the cluster that had the signal before is joined to the tree of `d`. -/
theorem merge (h : Joining noLinear items d todo root clusters) (hd : d + 1 = items.length)
    (hs : s ∈ todo) (hsub : todo ⊆ signalsAt items d) (hk : k < items.length)
    (hsk : s ∈ joinedSignals items d todo k)
    (hall : ∀ i, s ∈ joinedSignals items d todo i → root i = root k) :
    ∃ arena path, arenaMerge clusters.arena clusters.clusterToCurrent k d = some (arena, path) ∧
      Joining noLinear items d (todo.erase s) (fun i => if root i = root k then d else root i)
        ⟨arena, path, clusters.signalToCluster.set s d⟩ := by
  have hroot := h.root_last hd
  have hsd : s ∈ signalsAt items d := hsub hs
  have hslt := h.bounded d s hsd
  have hkd : k ≠ d := by
    rintro rfl
    exact (mem_joinedSignals.mp hsk).2 rfl hs
  have hrk : root (root k) = root k := h.forest.root_root k
  have hrlt : root k < items.length := by
    have := h.forest.root_lt (i := k) (by rw [h.path_length]; exact hk)
    rwa [h.path_length] at this
  obtain ⟨c0, hget0, hperm0, hnum0⟩ := h.cluster d (by omega) hroot
  rw [if_pos rfl] at hnum0
  have hpos : 0 < c0.numSignals := by
    have := Finset.card_pos.mpr ⟨s, mem_treeSignals.mpr ⟨d, hroot, hsd⟩⟩
    omega
  obtain ⟨c1, hget1, hperm1, hnum1⟩ : ∃ c1 : Cluster,
      (if root k = d then c1 = {} else clusters.arena[root k]? = some (some c1)) ∧
      c1.constraints.Perm (if root k = d then [] else members items root (root k)) ∧
      c1.numSignals = if root k = d then 0 else (treeSignals items root (root k)).card := by
    by_cases heq : root k = d
    · exact ⟨{}, by rw [if_pos heq], by rw [if_pos heq], by rw [if_pos heq]⟩
    · obtain ⟨c1, hget1, hperm1, hnum1⟩ := h.cluster _ hrlt hrk
      rw [if_neg heq, Nat.add_zero] at hnum1
      exact ⟨c1, by rw [if_neg heq]; exact hget1, by rw [if_neg heq]; exact hperm1,
        by rw [if_neg heq]; exact hnum1⟩
  obtain ⟨arena, path, hmerge, hforest, hpath, harena, hget⟩ := arenaMerge_spec h.forest
    (h.arena_length.trans h.path_length.symm) (by rw [h.path_length]; exact hk)
    (by rw [h.path_length]; omega) hroot (by rw [h.path_length]; omega) hget0 hget1 hpos
  rw [h.arena_length] at hget
  have hrootd : (if root d = root k then d else root d) = d := by
    rw [hroot]
    split_ifs <;> rfl
  refine ⟨arena, path, hmerge, hforest, hpath.trans h.path_length, harena.trans h.arena_length,
    h.length_le, ?_, ?_, ?_, ?_, ?_⟩
  · intro i t ht
    rw [List.length_set]
    exact h.bounded i t ht
  · intro t ht
    rw [List.length_set] at ht
    simp only [mem_joinedSignals_erase hs hsub]
    by_cases hts : t = s
    · subst hts
      refine ⟨d, List.getElem?_set_self hslt, Or.inr ⟨by omega, Or.inr ⟨rfl, rfl⟩, ?_⟩⟩
      rintro i (hi | ⟨rfl, -⟩)
      · rw [hrootd, if_pos (hall i hi)]
      · rfl
    · obtain ⟨j, hj, hcases⟩ := h.recorded t ht
      refine ⟨j, by rw [List.getElem?_set_ne (Ne.symm hts)]; exact hj, ?_⟩
      simp only [hts, and_false, or_false]
      rcases hcases with hnone | ⟨hjlt, htj, hrootj⟩
      · exact Or.inl hnone
      · exact Or.inr ⟨hjlt, htj, fun i hi => by rw [hrootj i hi]⟩
  · intro i hi hself
    by_cases hid : i = d
    · subst hid
      refine ⟨_, by rw [hget i hi, if_pos rfl], ?_, ?_⟩
      · refine (hperm0.append hperm1).trans ?_
        by_cases heq : root k = i
        · rw [if_pos heq, List.append_nil]
          refine List.Perm.of_eq ?_
          congr 1
          funext j
          split_ifs with hj
          · rw [hj, heq]
          · rfl
        · rw [if_neg heq]
          exact (members_join items root heq).symm
      · rw [if_pos rfl]
        exact h.count_join hroot hs hsub hkd (mem_joinedSignals.mp hsk).1 hnum0 hnum1
    · -- another root has not changed
      have hik : root i ≠ root k := by
        intro heq
        rw [if_pos heq] at hself
        exact hid hself.symm
      rw [if_neg hik] at hself
      have hir : i ≠ root k := by
        rw [← hself]
        exact hik
      obtain ⟨cluster, hget', hperm, hnum⟩ := h.cluster i hi hself
      refine ⟨cluster, by rw [hget i hi, if_neg hid, if_neg hir]; exact hget', ?_, ?_⟩
      · rw [members_join_of_ne items root hir hid]
        exact hperm
      · rw [if_neg hid] at hnum ⊢
        rw [treeSignals_join_of_ne items root hir hid]
        exact hnum
  · intro i hi hself
    have hid : i ≠ d := by
      rintro rfl
      exact hself hrootd
    rw [hget i hi, if_neg hid]
    by_cases hir : i = root k
    · rw [if_pos hir]
    · rw [if_neg hir]
      refine h.vacant i hi ?_
      intro heq
      have hik : root i ≠ root k := by
        rw [heq]
        exact hir
      rw [if_neg hik] at hself
      exact hself heq
  · intro i hi j hj heq
    -- the shared signal leads from the tree of `k` to that of `d`
    have hshare : ReflTransGen (SharesAt items) k d :=
      ReflTransGen.single ⟨s, (mem_joinedSignals.mp hsk).1, hsd⟩
    have hshare' : ReflTransGen (SharesAt items) d k :=
      Std.Symm.symm _ _ hshare
    by_cases hik : root i = root k <;> by_cases hjk : root j = root k
    · exact h.linked i hi j hj (hik.trans hjk.symm)
    · simp only [hik, hjk, if_true, if_false] at heq
      exact (h.linked i hi k hk hik).trans (hshare.trans
        (h.linked d (by omega) j hj (hroot.trans heq)))
    · simp only [hik, hjk, if_true, if_false] at heq
      exact (h.linked i hi d (by omega) (heq.trans hroot.symm)).trans (hshare'.trans
        (h.linked k hk j hj hjk.symm))
    · simp only [hik, hjk, if_false] at heq
      exact h.linked i hi j hj heq

end Merge

theorem joinSignal_spec (h : Joining noLinear items d todo root clusters) (hd : d + 1 = items.length)
    (hs : s ∈ todo) (hsub : todo ⊆ signalsAt items d) :
    ∃ clusters' root', joinSignal noLinear d clusters s = some clusters' ∧
      Joining noLinear items d (todo.erase s) root' clusters' ∧
      clusters'.signalToCluster.length = clusters.signalToCluster.length := by
  obtain ⟨k, hk, ⟨rfl, hnew⟩ | ⟨hklt, hsk, hall⟩⟩ := h.recorded s (h.bounded d s (hsub hs))
  · refine ⟨_, root, ?_, h.record hd hs hsub hnew, List.length_set⟩
    simp [joinSignal, hk]
  · obtain ⟨arena, path, hmerge, hjoin⟩ := h.merge hd hs hsub hklt hsk hall
    have hlt : k < noLinear := hklt.trans_le h.length_le
    refine ⟨_, _, ?_, hjoin, List.length_set⟩
    simp [joinSignal, hk, hlt, hmerge]

end Joining

/-! ## Adding a constraint -/

section Push

variable {noLinear d : ℕ} {items : List C} {root : ℕ → ℕ} {clusters : Clusters} {c : C}

theorem signalsAt_append_left (hi : i < items.length) : signalsAt (items ++ [c]) i = signalsAt items i := by
  rw [signalsAt, signalsAt, List.getElem?_append_left hi]

theorem signalsAt_concat_length : signalsAt (items ++ [c]) items.length = c.takeClonedSignals := by
  rw [signalsAt, List.getElem?_concat_length]
  rfl

/-- The newest constraint with none of its signals joined. -/
theorem Joining.push (h : Joining noLinear items d ∅ root clusters) (hlt : items.length < noLinear)
    (hc : ∀ s ∈ c.takeClonedSignals, s < clusters.signalToCluster.length) :
    Joining noLinear (items ++ [c]) items.length c.takeClonedSignals root
      { clusters with
        arena := clusters.arena ++ [some (Cluster.new c c.takeClonedSignals.card)]
        clusterToCurrent := clusters.clusterToCurrent ++ [items.length] } := by
  have hforest := h.forest.push
  rw [h.path_length] at hforest
  have hlast : root items.length = items.length := h.forest.outside _ h.path_length.le
  have hrlt : ∀ i < items.length, root i < items.length := by
    intro i hi
    have := h.forest.root_lt (i := i) (by rw [h.path_length]; exact hi)
    rwa [h.path_length] at this
  have hmem : ∀ i s, s ∈ signalsAt (items ++ [c]) i →
      i < items.length ∧ s ∈ signalsAt items i ∨ i = items.length ∧ s ∈ c.takeClonedSignals := by
    intro i s hs
    have hi := lt_of_mem_signalsAt hs
    rw [List.length_append, List.length_singleton] at hi
    rcases Nat.lt_or_ge i items.length with hi' | hi'
    · rw [signalsAt_append_left hi'] at hs
      exact Or.inl ⟨hi', hs⟩
    · obtain rfl : i = items.length := by omega
      rw [signalsAt_concat_length] at hs
      exact Or.inr ⟨rfl, hs⟩
  have hjoined : ∀ i s, s ∈ joinedSignals (items ++ [c]) items.length c.takeClonedSignals i ↔
      s ∈ joinedSignals items d ∅ i := by
    intro i s
    simp only [mem_joinedSignals, Finset.notMem_empty, not_false_eq_true, implies_true, and_true]
    constructor
    · rintro ⟨hs, himp⟩
      rcases hmem i s hs with ⟨-, hs⟩ | ⟨rfl, hs'⟩
      · exact hs
      · exact absurd hs' (himp rfl)
    · intro hs
      have hi := lt_of_mem_signalsAt hs
      exact ⟨by rw [signalsAt_append_left hi]; exact hs, fun heq => by omega⟩
  have htree : ∀ r < items.length, treeSignals (items ++ [c]) root r = treeSignals items root r := by
    intro r hr
    ext s
    simp only [mem_treeSignals]
    constructor
    · rintro ⟨i, hi, hs⟩
      rcases hmem i s hs with ⟨-, hs⟩ | ⟨rfl, -⟩
      · exact ⟨i, hi, hs⟩
      · omega
    · rintro ⟨i, hi, hs⟩
      exact ⟨i, hi, by rw [signalsAt_append_left (lt_of_mem_signalsAt hs)]; exact hs⟩
  have hmembers : ∀ r, members (items ++ [c]) root r =
      members items root r ++ if root items.length = r then [c] else [] := by
    intro r
    rw [members, members, List.zipIdx_append, List.filter_append, List.map_append]
    congr 1
    by_cases hr : root items.length = r <;> simp [hr]
  refine ⟨hforest, ?_, ?_, ?_, ?_, ?_, ?_, ?_, ?_⟩
  · simp [h.path_length]
  · simp [h.arena_length]
  · rw [List.length_append, List.length_singleton]
    exact hlt
  · intro i s hs
    rcases hmem i s hs with ⟨-, hs⟩ | ⟨-, hs⟩
    · exact h.bounded i s hs
    · exact hc s hs
  · intro s hs
    obtain ⟨k, hk, hcases⟩ := h.recorded s hs
    refine ⟨k, hk, ?_⟩
    simp only [hjoined, List.length_append, List.length_singleton]
    exact hcases.imp id fun ⟨h1, h2, h3⟩ => ⟨by omega, h2, h3⟩
  · intro i hi hself
    rw [List.length_append, List.length_singleton] at hi
    rcases Nat.lt_or_ge i items.length with hi' | hi'
    · obtain ⟨cluster, hget, hperm, hnum⟩ := h.cluster i hi' hself
      refine ⟨cluster, ?_, ?_, ?_⟩
      · rw [List.getElem?_append_left (by rw [h.arena_length]; exact hi')]
        exact hget
      · rw [hmembers, if_neg (by omega), List.append_nil]
        exact hperm
      · rw [hnum, htree i hi', if_neg (by omega : i ≠ items.length)]
        simp
    · obtain rfl : i = items.length := by omega
      refine ⟨Cluster.new c c.takeClonedSignals.card, ?_, ?_, ?_⟩
      · simp only [← h.arena_length]
        exact List.getElem?_concat_length
      · have hnone : members items root items.length = [] := by
          rw [members, List.map_eq_nil_iff, List.filter_eq_nil_iff]
          intro e he
          have := hrlt e.2 (List.mem_zipIdx' he).1
          simp only [decide_eq_true_eq]
          omega
        rw [hmembers, if_pos hlast, hnone]
        exact List.Perm.refl _
      · have hsig : treeSignals (items ++ [c]) root items.length = c.takeClonedSignals := by
          ext s
          rw [mem_treeSignals]
          constructor
          · rintro ⟨i, hi, hs⟩
            rcases hmem i s hs with ⟨hilt, -⟩ | ⟨-, hs⟩
            · have := hrlt i hilt
              omega
            · exact hs
          · intro hs
            exact ⟨items.length, hlast, by rw [signalsAt_concat_length]; exact hs⟩
        have hother : otherSignals (items ++ [c]) root items.length = ∅ := by
          refine Finset.eq_empty_of_forall_notMem ?_
          intro s hs
          obtain ⟨i, hi, hne, hs⟩ := mem_otherSignals.mp hs
          rcases hmem i s hs with ⟨hilt, -⟩ | ⟨rfl, -⟩
          · have := hrlt i hilt
            omega
          · exact hne rfl
        rw [hsig, hother, if_pos rfl, Finset.inter_empty, Finset.card_empty]
        rfl
  · intro i hi hself
    rw [List.length_append, List.length_singleton] at hi
    have hi' : i < items.length := by
      by_contra hge
      obtain rfl : i = items.length := by omega
      exact hself hlast
    rw [List.getElem?_append_left (by rw [h.arena_length]; exact hi')]
    exact h.vacant i hi' hself
  · intro i hi j hj heq
    rw [List.length_append, List.length_singleton] at hi hj
    have hmono : ∀ a b, SharesAt items a b → SharesAt (items ++ [c]) a b := by
      rintro a b ⟨s, ha, hb⟩
      exact ⟨s, by rw [signalsAt_append_left (lt_of_mem_signalsAt ha)]; exact ha,
        by rw [signalsAt_append_left (lt_of_mem_signalsAt hb)]; exact hb⟩
    rcases Nat.lt_or_ge i items.length with hi' | hi' <;>
      rcases Nat.lt_or_ge j items.length with hj' | hj'
    · exact ReflTransGen.mono hmono i j (h.linked i hi' j hj' heq)
    · obtain rfl : j = items.length := by omega
      have := hrlt i hi'
      omega
    · obtain rfl : i = items.length := by omega
      have := hrlt j hj'
      omega
    · obtain rfl : i = j := by omega
      exact ReflTransGen.refl

theorem addToClusters_spec (o : HashOrder) (h : Joining noLinear items d ∅ root clusters)
    (hlt : items.length < noLinear) (hne : c.isEmpty = false)
    (hc : ∀ s ∈ c.takeClonedSignals, s < clusters.signalToCluster.length) :
    ∃ clusters' root', addToClusters o noLinear clusters c = some clusters' ∧
      Joining noLinear (items ++ [c]) items.length ∅ root' clusters' ∧
      clusters'.signalToCluster.length = clusters.signalToCluster.length := by
  have hpush := h.push hlt hc
  obtain ⟨signals, hsignals⟩ : ∃ l, (o.sub items.length).walk c.takeClonedSignals.ascending = l :=
    ⟨_, rfl⟩
  have hperm := (o.sub items.length).walk_perm c.takeClonedSignals.ascending
  rw [hsignals] at hperm
  have hnodup : signals.Nodup := hperm.nodup_iff.mpr (Finset.nodup_ascending _)
  have htodo : signals.toFinset = c.takeClonedSignals := by
    rw [List.toFinset_eq_of_perm _ _ hperm, Finset.toFinset_ascending]
  have hlen : signals.length = c.takeClonedSignals.card := by
    rw [hperm.length_eq, Finset.length_ascending]
  have hd : items.length + 1 = (items ++ [c]).length := by simp
  have hloop := foldlM_invariant (f := joinSignal noLinear items.length)
    (fun (l : List ℕ) (clusters' : Clusters) => l.Nodup ∧
      l.toFinset ⊆ signalsAt (items ++ [c]) items.length ∧
      clusters'.signalToCluster.length = clusters.signalToCluster.length ∧
      ∃ root', Joining noLinear (items ++ [c]) items.length l.toFinset root' clusters') ?_ (l := signals)
    (s := { clusters with
      arena := clusters.arena ++ [some (Cluster.new c c.takeClonedSignals.card)]
      clusterToCurrent := clusters.clusterToCurrent ++ [items.length] }) ?_
  · obtain ⟨clusters', hrun, -, -, hlen', root', hjoin⟩ := hloop
    refine ⟨clusters', root', ?_, hjoin, hlen'⟩
    rw [addToClusters, hne]
    simp only [Bool.false_eq_true, if_false, h.arena_length, hsignals, hlen]
    exact hrun
  · rintro s l clusters1 ⟨hnd, hsub, hlen1, root1, hjoin⟩
    obtain ⟨hnot, hnd'⟩ := List.nodup_cons.mp hnd
    have hs : s ∈ (s :: l).toFinset := List.mem_toFinset.mpr List.mem_cons_self
    obtain ⟨clusters2, root2, hrun, hjoin', hlen2⟩ := hjoin.joinSignal_spec hd hs hsub
    have herase : (s :: l).toFinset.erase s = l.toFinset := by
      rw [List.toFinset_cons, Finset.erase_insert]
      exact fun hmem => hnot (List.mem_toFinset.mp hmem)
    rw [herase] at hjoin'
    refine ⟨clusters2, hrun, hnd', ?_, hlen2.trans hlen1, root2, hjoin'⟩
    exact fun t ht => hsub (List.mem_toFinset.mpr (List.mem_cons_of_mem s (List.mem_toFinset.mp ht)))
  · refine ⟨hnodup, ?_, rfl, root, ?_⟩
    · rw [htodo, signalsAt_concat_length]
    · rw [htodo]
      exact hpush

end Push

/-! ## The clusters -/

/-- The signals of a list of constraints. -/
def signalsOf (constraints : List C) : Finset ℕ :=
  constraints.toFinset.biUnion fun c => c.takeClonedSignals

theorem mem_signalsOf {constraints : List C} :
    s ∈ signalsOf constraints ↔ ∃ c ∈ constraints, s ∈ c.takeClonedSignals := by
  simp [signalsOf]

/-- Two constraints of a list that share a signal. -/
def Shares (constraints : List C) (c c' : C) : Prop :=
  c ∈ constraints ∧ c' ∈ constraints ∧ ∃ s, s ∈ c.takeClonedSignals ∧ s ∈ c'.takeClonedSignals

/-- The clusters are the connected components of the constraints that are not empty. -/
structure Clustering (linear : List C) (clusters : List Cluster) : Prop where
  perm : (clusters.flatMap fun cluster => cluster.constraints).Perm
    (linear.filter fun c => !c.isEmpty)
  disjoint : clusters.Pairwise fun cluster cluster' =>
    Disjoint (signalsOf cluster.constraints) (signalsOf cluster'.constraints)
  nonempty : ∀ cluster ∈ clusters, cluster.constraints ≠ []
  numSignals_eq : ∀ cluster ∈ clusters, cluster.numSignals = (signalsOf cluster.constraints).card
  signals_nonempty : ∀ cluster ∈ clusters, cluster.size ≠ 1 →
    ∀ c ∈ cluster.constraints, c.takeClonedSignals.Nonempty
  linked : ∀ cluster ∈ clusters, ∀ c ∈ cluster.constraints, ∀ c' ∈ cluster.constraints,
    ReflTransGen (Shares cluster.constraints) c c'

theorem perm_flatMap_cons {α : Type} (g : ℕ → List α) (b : α) {k : ℕ} {l : List ℕ} (hl : l.Nodup)
    (hk : k ∈ l) :
    (l.flatMap fun i => if k = i then b :: g i else g i).Perm (b :: l.flatMap g) := by
  induction l with
  | nil => cases hk
  | cons i l ih =>
    obtain ⟨hi, hl⟩ := List.nodup_cons.mp hl
    rw [List.flatMap_cons, List.flatMap_cons]
    by_cases hki : k = i
    · subst hki
      rw [if_pos rfl, List.cons_append]
      have hsame : (l.flatMap fun i => if k = i then b :: g i else g i) = l.flatMap g := by
        refine List.flatMap_congr ?_
        intro i hil
        rw [if_neg]
        rintro rfl
        exact hi hil
      rw [hsame]
    · rw [if_neg hki]
      refine ((ih hl ((List.mem_cons.mp hk).resolve_left hki)).append_left (g i)).trans ?_
      exact List.perm_middle

/-- A list is divided by the values of a bounded function. -/
theorem perm_flatMap_filter {α : Type} (f : α → ℕ) {n : ℕ} {l : List α} (hl : ∀ b ∈ l, f b < n) :
    ((List.range n).flatMap fun i => l.filter fun b => f b = i).Perm l := by
  induction l with
  | nil => simp
  | cons b l ih =>
    have hb := hl b List.mem_cons_self
    have hstep := perm_flatMap_cons (fun i => l.filter fun b => f b = i) b List.nodup_range
      (List.mem_range.mpr hb)
    refine List.Perm.trans (List.Perm.of_eq ?_)
      (hstep.trans ((ih fun b' hb' => hl b' (List.mem_cons_of_mem b hb')).cons b))
    refine List.flatMap_congr ?_
    intro i _
    rw [List.filter_cons]
    by_cases h : f b = i <;> simp [h]

theorem mem_members {items : List C} {root : ℕ → ℕ} :
    c ∈ members items root r ↔ ∃ i, items[i]? = some c ∧ root i = r := by
  simp only [members, List.mem_map, List.mem_filter, decide_eq_true_eq]
  constructor
  · rintro ⟨⟨c', i⟩, ⟨hmem, hr⟩, rfl⟩
    exact ⟨i, List.mem_zipIdx_iff_getElem?.mp hmem, hr⟩
  · rintro ⟨i, hi, hr⟩
    exact ⟨(c, i), ⟨List.mem_zipIdx_iff_getElem?.mpr hi, hr⟩, rfl⟩

theorem perm_of_slots {arena : ClusterArena} {l : List ℕ} {g : ℕ → List C}
    (h : List.Forall₂ (fun (slot : Option Cluster) i =>
      (slot.elim [] fun cluster => cluster.constraints).Perm (g i)) arena l) :
    (arena.reduceOption.flatMap fun cluster => cluster.constraints).Perm (l.flatMap g) := by
  induction h with
  | nil => exact List.Perm.refl _
  | @cons slot i arena l hslot _ ih =>
    rw [List.flatMap_cons]
    cases slot with
    | none =>
      rw [List.reduceOption_cons_of_none]
      exact List.Perm.trans ih (hslot.append_right _)
    | some cluster =>
      rw [List.reduceOption_cons_of_some, List.flatMap_cons]
      exact hslot.append ih

namespace Joining

variable {noLinear d : ℕ} {items : List C} {root : ℕ → ℕ} {clusters : Clusters}

/-- A cluster of the arena is the one of a root. -/
theorem of_mem_arena (h : Joining noLinear items d ∅ root clusters) {cluster : Cluster}
    (hget : clusters.arena[i]? = some (some cluster)) :
    i < items.length ∧ root i = i ∧ cluster.constraints.Perm (members items root i) ∧
      cluster.numSignals = (treeSignals items root i).card := by
  have hi : i < items.length := by
    rw [← h.arena_length]
    exact (List.getElem?_eq_some_iff.mp hget).1
  have hroot : root i = i := by
    by_contra hne
    rw [h.vacant i hi hne] at hget
    cases hget
  obtain ⟨cluster', hget', hperm, hnum⟩ := h.cluster i hi hroot
  obtain rfl : cluster' = cluster := Option.some.inj (Option.some.inj (hget'.symm.trans hget))
  exact ⟨hi, hroot, hperm, by rw [hnum]; simp⟩

theorem signalsOf_cluster (h : Joining noLinear items d ∅ root clusters) {cluster : Cluster}
    (hget : clusters.arena[i]? = some (some cluster)) : signalsOf cluster.constraints = treeSignals items root i := by
  obtain ⟨-, -, hperm, -⟩ := h.of_mem_arena hget
  ext s
  rw [mem_signalsOf, mem_treeSignals]
  constructor
  · rintro ⟨c, hc, hs⟩
    obtain ⟨j, hj, hr⟩ := mem_members.mp (hperm.mem_iff.mp hc)
    exact ⟨j, hr, by rw [signalsAt_of_getElem? hj]; exact hs⟩
  · rintro ⟨j, hr, hs⟩
    have hj := List.getElem?_eq_getElem (lt_of_mem_signalsAt hs)
    rw [signalsAt_of_getElem? hj] at hs
    exact ⟨_, hperm.mem_iff.mpr (mem_members.mpr ⟨j, hj, hr⟩), hs⟩

/-- Signals of the table when all signals are joined. -/
theorem root_eq_of_shares (h : Joining noLinear items d ∅ root clusters) {j : ℕ}
    (hs : SharesAt items i j) : root i = root j := by
  obtain ⟨s, hi, hj⟩ := hs
  exact h.root_eq (mem_joinedSignals.mpr ⟨hi, fun _ => Finset.notMem_empty s⟩)
    (mem_joinedSignals.mpr ⟨hj, fun _ => Finset.notMem_empty s⟩)

/-- A constraint without signals is the only one in its tree. -/
theorem signals_nonempty (h : Joining noLinear items d ∅ root clusters) {a : ℕ} (ha : items[a]? = some c)
    (hlen : (members items root (root a)).length ≠ 1) : c.takeClonedSignals.Nonempty := by
  have halt := (List.getElem?_eq_some_iff.mp ha).1
  have hmem : (c, a) ∈ items.zipIdx.filter fun e => root e.2 = root a := by
    rw [List.mem_filter]
    exact ⟨List.mem_zipIdx_iff_getElem?.mpr ha, by simp⟩
  rw [members, List.length_map] at hlen
  -- another constraint of the tree
  obtain ⟨e, he, hne⟩ : ∃ e ∈ items.zipIdx.filter fun e => root e.2 = root a, e ≠ (c, a) := by
    by_contra hnone
    push Not at hnone
    have hnodup : (items.zipIdx.filter fun e => root e.2 = root a).Nodup := List.Nodup.filter _ (by
      refine List.Nodup.of_map Prod.snd ?_
      rw [List.zipIdx_map_snd]
      exact List.nodup_range')
    have hle := (hnodup.subperm fun e he => List.mem_singleton.mpr (hnone e he)).length_le
    have hpos := List.length_pos_of_mem hmem
    rw [List.length_singleton] at hle
    omega
  obtain ⟨heget, hroot⟩ := List.mem_filter.mp he
  have hget := List.mem_zipIdx_iff_getElem?.mp heget
  have helt := (List.getElem?_eq_some_iff.mp hget).1
  have hea : e.2 ≠ a := by
    intro heq
    refine hne (Prod.ext ?_ heq)
    rw [heq, ha] at hget
    exact (Option.some.inj hget).symm
  rcases ReflTransGen.cases_head (h.linked a halt e.2 helt (of_decide_eq_true hroot).symm) with
    heq | ⟨x, ⟨s, hs, -⟩, -⟩
  · exact absurd heq.symm hea
  · rw [signalsAt_of_getElem? ha] at hs
    exact ⟨s, hs⟩

theorem clustering (h : Joining noLinear items d ∅ root clusters) :
    (clusters.arena.reduceOption.flatMap fun cluster => cluster.constraints).Perm items ∧
      clusters.arena.reduceOption.Pairwise (fun cluster cluster' =>
        Disjoint (signalsOf cluster.constraints) (signalsOf cluster'.constraints)) ∧
      ∀ cluster ∈ clusters.arena.reduceOption, cluster.constraints ≠ [] ∧
        cluster.numSignals = (signalsOf cluster.constraints).card ∧
        (cluster.size ≠ 1 → ∀ c ∈ cluster.constraints, c.takeClonedSignals.Nonempty) ∧
        ∀ c ∈ cluster.constraints, ∀ c' ∈ cluster.constraints,
          ReflTransGen (Shares cluster.constraints) c c' := by
  refine ⟨?_, ?_, ?_⟩
  · -- slot by slot, the arena has the members of the trees
    have hslots : List.Forall₂ (fun (slot : Option Cluster) i =>
        (slot.elim [] fun cluster => cluster.constraints).Perm (members items root i))
        clusters.arena (List.range items.length) := by
      rw [List.forall₂_iff_get]
      refine ⟨by rw [h.arena_length, List.length_range], ?_⟩
      intro i hi hi'
      simp only [List.get_eq_getElem, List.getElem_range]
      have hget : clusters.arena[i]? = some clusters.arena[i] := List.getElem?_eq_getElem hi
      rw [h.arena_length] at hi
      by_cases hroot : root i = i
      · obtain ⟨cluster, hget', hperm, -⟩ := h.cluster i hi hroot
        rw [Option.some.inj (hget.symm.trans hget')]
        exact hperm
      · rw [Option.some.inj (hget.symm.trans (h.vacant i hi hroot))]
        have hnone : members items root i = [] := by
          refine List.eq_nil_iff_forall_not_mem.mpr ?_
          intro c hc
          obtain ⟨j, -, hj⟩ := mem_members.mp hc
          exact hroot (by rw [← hj, h.forest.root_root])
        rw [hnone]
        exact List.Perm.refl _
    refine (perm_of_slots hslots).trans ?_
    have hparts := perm_flatMap_filter (fun e : C × ℕ => root e.2) (n := items.length)
      (l := items.zipIdx) (by
        intro e he
        have := h.forest.root_lt (i := e.2) (by
          rw [h.path_length]
          exact (List.mem_zipIdx' he).1)
        rwa [h.path_length] at this)
    have hmap := hparts.map Prod.fst
    rw [List.map_flatMap, List.zipIdx_map_fst] at hmap
    exact hmap
  · rw [List.reduceOption, List.pairwise_filterMap, List.pairwise_iff_getElem]
    intro i j hi hj hij cluster hcluster cluster' hcluster'
    have hgeti : clusters.arena[i]? = some (some cluster) := by
      rw [List.getElem?_eq_getElem hi]
      exact congrArg some hcluster
    have hgetj : clusters.arena[j]? = some (some cluster') := by
      rw [List.getElem?_eq_getElem hj]
      exact congrArg some hcluster'
    obtain ⟨-, hri, -, -⟩ := h.of_mem_arena hgeti
    obtain ⟨-, hrj, -, -⟩ := h.of_mem_arena hgetj
    rw [h.signalsOf_cluster hgeti, h.signalsOf_cluster hgetj, Finset.disjoint_left]
    intro s hs hs'
    obtain ⟨a, ha, hsa⟩ := mem_treeSignals.mp hs
    obtain ⟨b, hb, hsb⟩ := mem_treeSignals.mp hs'
    have := h.root_eq_of_shares ⟨s, hsa, hsb⟩
    omega
  · intro cluster hcluster
    rw [List.reduceOption_mem_iff] at hcluster
    obtain ⟨i, hget⟩ := List.getElem?_of_mem hcluster
    obtain ⟨hi, hroot, hperm, hnum⟩ := h.of_mem_arena hget
    refine ⟨?_, ?_, ?_, ?_⟩
    · intro hnil
      have hmem : items[i] ∈ members items root i :=
        mem_members.mpr ⟨i, List.getElem?_eq_getElem hi, hroot⟩
      have := hperm.mem_iff.mpr hmem
      rw [hnil] at this
      cases this
    · rw [hnum, h.signalsOf_cluster hget]
    · intro hsize c hc
      obtain ⟨a, ha, hra⟩ := mem_members.mp (hperm.mem_iff.mp hc)
      refine h.signals_nonempty ha ?_
      rw [hra, ← hperm.length_eq]
      exact hsize
    · intro c hc c' hc'
      obtain ⟨a, ha, hra⟩ := mem_members.mp (hperm.mem_iff.mp hc)
      obtain ⟨b, hb, hrb⟩ := mem_members.mp (hperm.mem_iff.mp hc')
      have halt := (List.getElem?_eq_some_iff.mp ha).1
      have hblt := (List.getElem?_eq_some_iff.mp hb).1
      have hchain := h.linked a halt b hblt (hra.trans hrb.symm)
      -- the chain of indices stays in the tree
      clear hc'
      induction hchain generalizing c' with
      | refl =>
        obtain rfl : c = c' := Option.some.inj (ha.symm.trans hb)
        exact ReflTransGen.refl
      | @tail e b _ hshare ih =>
        have hre : root e = i := (h.root_eq_of_shares hshare).trans hrb
        obtain ⟨s, hse, hsb⟩ := hshare
        have helt := lt_of_mem_signalsAt hse
        have hge := List.getElem?_eq_getElem helt
        refine (ih _ hge hre helt).tail ⟨?_, ?_, s, ?_, ?_⟩
        · exact hperm.mem_iff.mpr (mem_members.mpr ⟨e, hge, hre⟩)
        · exact hperm.mem_iff.mpr (mem_members.mpr ⟨b, hb, hrb⟩)
        · rwa [signalsAt_of_getElem? hge] at hse
        · rwa [signalsAt_of_getElem? hb] at hsb

end Joining

/-- Constraints whose signals are below `noVars` are divided into clusters without a panic. -/
theorem buildClusters_spec (o : HashOrder) {linear : List C} {noVars : ℕ}
    (hlinear : ∀ c ∈ linear, ∀ s ∈ c.takeClonedSignals, s < noVars) :
    ∃ clusters, buildClusters o linear noVars = some clusters ∧ Clustering linear clusters := by
  have hloop := foldlM_invariant (f := addToClusters o linear.length)
    (fun (l : List C) (clusters : Clusters) => ∃ items root d,
      Joining linear.length items d ∅ root clusters ∧
      (items ++ l.filter fun c => !c.isEmpty) = (linear.filter fun c => !c.isEmpty) ∧
      items.length + l.length ≤ linear.length ∧ clusters.signalToCluster.length = noVars ∧
      ∀ c ∈ l, c ∈ linear) ?_ (l := linear)
    (s := ⟨[], [], List.replicate noVars linear.length⟩) ?_
  · obtain ⟨clusters, hrun, items, root, d, hjoin, hperm, -⟩ := hloop
    rw [List.filter_nil, List.append_nil] at hperm
    obtain ⟨hparts, hdisjoint, hclusters⟩ := hjoin.clustering
    have hfilter : (clusters.arena.reduceOption.filter fun cluster => cluster.size ≠ 0) =
        clusters.arena.reduceOption := by
      refine List.filter_eq_self.mpr ?_
      intro cluster hcluster
      simpa [Cluster.size] using (hclusters cluster hcluster).1
    refine ⟨clusters.arena.reduceOption, ?_, ?_, hdisjoint, fun cl hcl => (hclusters cl hcl).1,
      fun cl hcl => (hclusters cl hcl).2.1, fun cl hcl => (hclusters cl hcl).2.2.1,
      fun cl hcl => (hclusters cl hcl).2.2.2⟩
    · rw [buildClusters]
      simp only [hrun, Option.bind_eq_bind, Option.bind_some, hfilter]
    · rw [← hperm]
      exact hparts
  · rintro c l clusters ⟨items, root, d, hjoin, hitems, hlen, hvars, hmem⟩
    rw [List.length_cons] at hlen
    have hmem' : ∀ c' ∈ l, c' ∈ linear := fun c' hc' => hmem c' (List.mem_cons_of_mem c hc')
    cases hempty : c.isEmpty with
    | true =>
      refine ⟨clusters, by rw [addToClusters, if_pos hempty], items, root, d, hjoin, ?_, by omega,
        hvars, hmem'⟩
      rw [← hitems, List.filter_cons_of_neg (by simp [hempty])]
    | false =>
      obtain ⟨clusters', root', hrun, hjoin', hvars'⟩ := addToClusters_spec o hjoin (by omega)
        hempty (by
          intro s hs
          rw [hvars]
          exact hlinear c (hmem c List.mem_cons_self) s hs)
      refine ⟨clusters', hrun, items ++ [c], root', _, hjoin', ?_, ?_, hvars'.trans hvars, hmem'⟩
      · rw [← hitems, List.filter_cons_of_pos (by simp [hempty]), List.append_assoc]
        rfl
      · rw [List.length_append, List.length_singleton]
        omega
  · refine ⟨[], id, 0, ⟨ForwardForest.empty, rfl, rfl, Nat.zero_le _, ?_, ?_, ?_, ?_, ?_⟩, rfl,
      by simp, List.length_replicate, fun c hc => hc⟩
    · intro i s hs
      exact absurd (lt_of_mem_signalsAt hs) (Nat.not_lt_zero i)
    · intro s hs
      rw [List.length_replicate] at hs
      refine ⟨linear.length, List.getElem?_replicate_of_lt hs, Or.inl ⟨rfl, ?_⟩⟩
      intro i hi
      exact absurd (lt_of_mem_signalsAt (mem_joinedSignals.mp hi).1) (Nat.not_lt_zero i)
    · intro i hi
      exact absurd hi (Nat.not_lt_zero i)
    · intro i hi
      exact absurd hi (Nat.not_lt_zero i)
    · intro i hi
      exact absurd hi (Nat.not_lt_zero i)

end Circom.ConstraintList
