import Circom.Parser.Proofs.IncludedFiles
import Mathlib.Data.List.Chain
import Mathlib.Data.Finset.Prod

/-!
# Chains of includes that need the pragma

The traversal of the graph of includes follows every chain of edges that are all different. It therefore meets every
file that includes, directly or through other files, the one from which it starts, and it ends.
-/

namespace Circom.Parser.IncludeLogic

open Circom.Lib (FileSystem PathBuf)
open Relation (ReflTransGen TransGen)

variable {paths : List (List PathBuf)} {path : List PathBuf} {d f p x : PathBuf} {fuel i : ℕ}

/-! ## Walks -/

/-- A walk can leave out the part between two visits of a place. -/
theorem exists_nodup_walk {α : Type*} {r : α → α → Prop} {a b : α} (h : ReflTransGen r a b) :
    ∃ l, (a :: l).IsChain r ∧ (a :: l).Nodup ∧ (a :: l).getLast (List.cons_ne_nil a l) = b := by
  induction h using ReflTransGen.head_induction_on with
  | refl => exact ⟨[], List.isChain_singleton b, List.nodup_singleton b, rfl⟩
  | @head a c hac _ ih =>
    obtain ⟨l, hchain, hnodup, hlast⟩ := ih
    by_cases hmem : a ∈ c :: l
    · obtain ⟨s, t, heq⟩ := List.append_of_mem hmem
      rw [heq] at hchain hnodup
      refine ⟨t, hchain.right_of_append, (List.nodup_append.mp hnodup).2.1, ?_⟩
      rw [← hlast]
      simp only [heq, List.getLast_append_of_ne_nil _ (List.cons_ne_nil a t)]
    · refine ⟨c :: l, List.isChain_cons_cons.mpr ⟨hac, hchain⟩, List.nodup_cons.mpr ⟨hmem, hnodup⟩, ?_⟩
      rwa [List.getLast_cons (List.cons_ne_nil c l)]

namespace IncludesGraph

variable {self : IncludesGraph}

variable (self) in
/-- The file of node `j` includes that of node `i`. -/
def Edge (i j : ℕ) : Prop := ∃ node, self.nodes[i]? = some node ∧ j ∈ self.edges node.path

variable (self) in
/-- All edges lead to nodes. -/
def Closed : Prop := ∀ g, ∀ j ∈ self.edges g, j < self.nodes.length

variable (self) in
/-- The paths of the nodes along a chain of edges from node `i` to node `k`. -/
inductive Chain : ℕ → List PathBuf → ℕ → Prop
  | here {i : ℕ} {node : IncludesNode} (hi : self.nodes[i]? = some node) : Chain i [node.path] i
  | step {i j k : ℕ} {node : IncludesNode} {l : List PathBuf} (hi : self.nodes[i]? = some node)
      (hj : j ∈ self.edges node.path) (hl : Chain j l k) : Chain i (node.path :: l) k

theorem Chain.reflTransGen {k : ℕ} {l : List PathBuf} (h : self.Chain i l k) : ReflTransGen self.Edge i k := by
  induction h with
  | here => exact ReflTransGen.refl
  | step hi hj _ ih => exact ReflTransGen.head ⟨_, hi, hj⟩ ih

/-! ## What the traversal returns -/

variable (self) in
/-- A path that the traversal may return from node `start` after `path`. -/
def Problematic (path : List PathBuf) (start : ℕ) (q : List PathBuf) : Prop :=
  ∃ l k node, q = path ++ l ∧ self.Chain start l k ∧ self.nodes[k]? = some node ∧ node.customGatesPragma = false

theorem mem_traverseEdges {next : ℕ → Finset (ℕ × ℕ) → Option (List (List PathBuf))} {start : ℕ}
    {traversed : Finset (ℕ × ℕ)} {targets : List ℕ} {q : List PathBuf}
    (h : traverseEdges next start traversed targets = some paths) :
    q ∈ paths ↔ ∃ target ∈ targets, (start, target) ∉ traversed ∧
      ∃ ps, next target (insert (start, target) traversed) = some ps ∧ q ∈ ps := by
  induction targets generalizing paths with
  | nil =>
    cases h
    simp
  | cons target rest ih =>
    unfold traverseEdges at h
    by_cases hmem : (start, target) ∈ traversed
    · rw [if_pos hmem] at h
      simp only [ih h, List.mem_cons, exists_eq_or_imp]
      exact ⟨Or.inr, fun h => h.resolve_left fun h => h.1 hmem⟩
    · rw [if_neg hmem] at h
      obtain ⟨ps, hps, h⟩ := Option.bind_eq_some_iff.mp h
      obtain ⟨qs, hqs, h⟩ := Option.bind_eq_some_iff.mp h
      cases h
      simp only [List.mem_append, ih hqs, List.mem_cons, exists_eq_or_imp]
      refine or_congr_left ⟨fun hq => ⟨hmem, ps, hps, hq⟩, ?_⟩
      rintro ⟨-, ps', hps', hq⟩
      cases hps.symm.trans hps'
      exact hq

theorem exists_next_of_traverseEdges {next : ℕ → Finset (ℕ × ℕ) → Option (List (List PathBuf))} {start : ℕ}
    {traversed : Finset (ℕ × ℕ)} {targets : List ℕ}
    (h : traverseEdges next start traversed targets = some paths) {target : ℕ} (htarget : target ∈ targets)
    (hnew : (start, target) ∉ traversed) : ∃ ps, next target (insert (start, target) traversed) = some ps := by
  induction targets generalizing paths with
  | nil => cases htarget
  | cons first rest ih =>
    unfold traverseEdges at h
    by_cases hmem : (start, first) ∈ traversed
    · rw [if_pos hmem] at h
      refine ih h ((List.mem_cons.mp htarget).resolve_left ?_)
      rintro rfl
      exact hnew hmem
    · rw [if_neg hmem] at h
      obtain ⟨ps, hps, h⟩ := Option.bind_eq_some_iff.mp h
      obtain ⟨qs, hqs, -⟩ := Option.bind_eq_some_iff.mp h
      rcases List.mem_cons.mp htarget with rfl | htarget
      · exact ⟨ps, hps⟩
      · exact ih hqs htarget

/-- What the traversal of a node with fuel returns comes from the node or from one of the edges. -/
theorem traverse_succ {start : ℕ} {traversed : Finset (ℕ × ℕ)}
    (h : self.traverse (fuel + 1) start path traversed = some paths) :
    ∃ node further, self.nodes[start]? = some node ∧
      traverseEdges (fun target edges => self.traverse fuel target (path ++ [node.path]) edges) start traversed
        (self.edges node.path) = some further ∧
      paths = (if node.customGatesPragma then [] else [path ++ [node.path]]) ++ further := by
  unfold traverse at h
  obtain ⟨node, hnode, h⟩ := Option.bind_eq_some_iff.mp h
  dsimp only at h
  obtain ⟨further, hfurther, h⟩ := Option.bind_eq_some_iff.mp h
  cases h
  exact ⟨node, further, hnode, hfurther, rfl⟩

theorem problematic_of_traverse {start : ℕ} {traversed : Finset (ℕ × ℕ)}
    (h : self.traverse fuel start path traversed = some paths) : ∀ q ∈ paths, self.Problematic path start q := by
  induction fuel generalizing start path traversed paths with
  | zero => cases h
  | succ fuel ih =>
    obtain ⟨node, further, hnode, hfurther, rfl⟩ := traverse_succ h
    intro q hq
    rcases List.mem_append.mp hq with hq | hq
    · split_ifs at hq with hpragma
      · cases hq
      · refine ⟨[node.path], start, node, List.mem_singleton.mp hq, Chain.here hnode, hnode, ?_⟩
        simpa using hpragma
    · obtain ⟨target, htarget, -, ps, hps, hq⟩ := (mem_traverseEdges hfurther).mp hq
      obtain ⟨l, k, node', rfl, hchain, hk, hpragma⟩ := ih hps q hq
      refine ⟨node.path :: l, k, node', ?_, Chain.step hnode htarget hchain, hk, hpragma⟩
      rw [List.append_assoc]
      rfl

/-- A walk that visits no node twice, and none from which an edge was traversed, is followed to its end. -/
theorem exists_mem_traverse {start : ℕ} {traversed : Finset (ℕ × ℕ)} {l : List ℕ} {node : IncludesNode}
    (h : self.traverse fuel start path traversed = some paths) (hchain : (start :: l).IsChain self.Edge)
    (hnodup : (start :: l).Nodup) (hfresh : ∀ e ∈ traversed, e.1 ∉ start :: l)
    (hlast : self.nodes[(start :: l).getLast (List.cons_ne_nil start l)]? = some node)
    (hpragma : node.customGatesPragma = false) : paths ≠ [] := by
  induction fuel generalizing start path traversed paths l with
  | zero => cases h
  | succ fuel ih =>
    obtain ⟨first, further, hfirst, hfurther, rfl⟩ := traverse_succ h
    cases l with
    | nil =>
      cases hfirst.symm.trans hlast
      rw [hpragma]
      exact List.cons_ne_nil _ _
    | cons target l =>
      obtain ⟨⟨node', hnode', htarget⟩, hchain⟩ := List.isChain_cons_cons.mp hchain
      cases hfirst.symm.trans hnode'
      obtain ⟨hstart, hnodup⟩ := List.nodup_cons.mp hnodup
      have hnew : (start, target) ∉ traversed := fun hmem => hfresh _ hmem List.mem_cons_self
      obtain ⟨ps, hps⟩ := exists_next_of_traverseEdges hfurther htarget hnew
      have hne : ps ≠ [] := by
        refine ih hps hchain hnodup ?_ (by rwa [List.getLast_cons (List.cons_ne_nil target l)] at hlast)
        intro e he
        rcases Finset.mem_insert.mp he with rfl | he
        · exact hstart
        · exact fun hmem => hfresh e he (List.mem_cons_of_mem _ hmem)
      obtain ⟨q, hq⟩ := List.exists_mem_of_ne_nil ps hne
      have hmem : q ∈ further := (mem_traverseEdges hfurther).mpr ⟨target, htarget, hnew, ps, hps, hq⟩
      exact List.ne_nil_of_mem (List.mem_append_right _ hmem)

/-- The traversal from a node without problematic paths: the pragma stands in every file that includes it. -/
theorem traverse_eq_nil_iff {start : ℕ} (h : self.traverse fuel start [] ∅ = some paths) :
    paths = [] ↔ ∀ k node, ReflTransGen self.Edge start k → self.nodes[k]? = some node →
      node.customGatesPragma = true := by
  constructor
  · intro hnil k node hreach hnode
    by_contra hno
    obtain ⟨l, hchain, hnodup, hlast⟩ := exists_nodup_walk hreach
    refine exists_mem_traverse h hchain hnodup (fun e he => ?_) (hlast ▸ hnode) (by simpa using hno) hnil
    cases he
  · intro hall
    by_contra hne
    obtain ⟨q, hq⟩ := List.exists_mem_of_ne_nil paths hne
    obtain ⟨l, k, node, -, hchain, hk, hpragma⟩ := problematic_of_traverse h q hq
    rw [hall k node hchain.reflTransGen hk] at hpragma
    cases hpragma

/-! ## The traversal ends -/

variable (self) in
/-- All pairs of nodes. -/
def allEdges : Finset (ℕ × ℕ) := Finset.range self.nodes.length ×ˢ Finset.range self.nodes.length

theorem traverseEdges_returns {next : ℕ → ℕ → Finset (ℕ × ℕ) → Option (List (List PathBuf))} {k start : ℕ}
    {traversed : Finset (ℕ × ℕ)} {targets : List ℕ}
    (h : ∀ target ∈ targets, (start, target) ∉ traversed →
      ∃ ps, ∀ fuel, k ≤ fuel → next fuel target (insert (start, target) traversed) = some ps) :
    ∃ paths, ∀ fuel, k ≤ fuel → traverseEdges (next fuel) start traversed targets = some paths := by
  induction targets with
  | nil => exact ⟨[], fun _ _ => rfl⟩
  | cons target rest ih =>
    obtain ⟨qs, hqs⟩ := ih fun t ht => h t (List.mem_cons_of_mem _ ht)
    by_cases hmem : (start, target) ∈ traversed
    · refine ⟨qs, fun fuel hfuel => ?_⟩
      unfold traverseEdges
      rw [if_pos hmem]
      exact hqs fuel hfuel
    · obtain ⟨ps, hps⟩ := h target List.mem_cons_self hmem
      refine ⟨ps ++ qs, fun fuel hfuel => ?_⟩
      unfold traverseEdges
      rw [if_neg hmem, hps fuel hfuel, hqs fuel hfuel]
      rfl

/-- Each call traverses an edge that is new. -/
theorem traverse_returns (hclosed : self.Closed) (k : ℕ) {start : ℕ} (path : List PathBuf)
    {traversed : Finset (ℕ × ℕ)} (hstart : start < self.nodes.length)
    (hk : (self.allEdges \ traversed).card ≤ k) :
    ∃ paths, ∀ fuel, k < fuel → self.traverse fuel start path traversed = some paths := by
  induction k using Nat.strong_induction_on generalizing start path traversed with
  | h k ih =>
    obtain ⟨node, hnode⟩ : ∃ node, self.nodes[start]? = some node := ⟨_, List.getElem?_eq_getElem hstart⟩
    obtain ⟨further, hfurther⟩ := @traverseEdges_returns
      (fun fuel target edges => self.traverse fuel target (path ++ [node.path]) edges) k start traversed
      (self.edges node.path) fun target htarget hnew => by
        have hlt := hclosed node.path target htarget
        have hmem : (start, target) ∈ self.allEdges :=
          Finset.mem_product.mpr ⟨Finset.mem_range.mpr hstart, Finset.mem_range.mpr hlt⟩
        have hcard : (self.allEdges \ insert (start, target) traversed).card < (self.allEdges \ traversed).card := by
          refine Finset.card_lt_card ⟨Finset.sdiff_subset_sdiff (Finset.Subset.refl _) (Finset.subset_insert _ _),
            fun hsub => ?_⟩
          exact (Finset.mem_sdiff.mp (hsub (Finset.mem_sdiff.mpr ⟨hmem, hnew⟩))).2 (Finset.mem_insert_self _ _)
        obtain ⟨ps, hps⟩ := ih _ (lt_of_lt_of_le hcard hk) (path ++ [node.path]) hlt (Nat.le_refl _)
        exact ⟨ps, fun fuel hfuel => hps fuel (lt_of_lt_of_le hcard (hk.trans hfuel))⟩
    refine ⟨(if node.customGatesPragma then [] else [path ++ [node.path]]) ++ further, fun fuel hfuel => ?_⟩
    obtain ⟨fuel, rfl⟩ := Nat.exists_eq_succ_of_ne_zero (Nat.ne_zero_of_lt hfuel)
    unfold traverse
    rw [hnode]
    show (traverseEdges _ start traversed (self.edges node.path)).bind _ = _
    rw [hfurther fuel (Nat.le_of_lt_succ hfuel)]
    rfl

variable (self) in
/-- The start nodes are nodes. -/
def GatesClosed : Prop := ∀ i ∈ self.customGatesNodes, i < self.nodes.length

theorem traversals_return (hclosed : self.Closed) (starts : List ℕ) (hstarts : ∀ i ∈ starts, i < self.nodes.length) :
    ∃ pss, (∀ fuel, self.nodes.length * self.nodes.length < fuel →
        starts.mapM (fun i => self.traverse fuel i [] ∅) = some pss) ∧
      List.Forall₂ (fun i ps => ∃ fuel, self.traverse fuel i [] ∅ = some ps) starts pss := by
  induction starts with
  | nil => exact ⟨[], fun _ _ => rfl, List.Forall₂.nil⟩
  | cons i starts ih =>
    obtain ⟨hi, hstarts⟩ := List.forall_mem_cons.mp hstarts
    obtain ⟨pss, hpss, hall⟩ := ih hstarts
    have hcard : (self.allEdges \ ∅).card ≤ self.nodes.length * self.nodes.length := by
      unfold allEdges
      rw [Finset.sdiff_empty, Finset.card_product, Finset.card_range]
    obtain ⟨ps, hps⟩ := traverse_returns hclosed _ [] hi hcard
    refine ⟨ps :: pss, fun fuel hfuel => ?_, List.Forall₂.cons ⟨_, hps _ (Nat.lt_succ_self _)⟩ hall⟩
    rw [List.mapM_cons, hps fuel hfuel, hpss fuel hfuel]
    rfl

/-- The problematic paths: there is none when every node that leads to a start node has the pragma. -/
theorem getProblematicPaths_spec (hclosed : self.Closed) (hgates : self.GatesClosed) :
    ∃ paths, (∀ fuel, self.nodes.length * self.nodes.length < fuel → self.getProblematicPaths fuel = some paths) ∧
      (paths = [] ↔ ∀ i ∈ self.customGatesNodes, ∀ k node, ReflTransGen self.Edge i k → self.nodes[k]? = some node →
        node.customGatesPragma = true) ∧
      ∀ q ∈ paths, ∃ i ∈ self.customGatesNodes, self.Problematic [] i q := by
  obtain ⟨pss, hpss, hall⟩ := traversals_return hclosed self.customGatesNodes hgates
  refine ⟨pss.flatten, fun fuel hfuel => ?_, ?_, fun q hq => ?_⟩
  · unfold getProblematicPaths
    rw [hpss fuel hfuel]
    rfl
  · rw [List.flatten_eq_nil_iff]
    constructor
    · intro hnil i hi
      obtain ⟨ps, hps, fuel, hrun⟩ := Lib.forall₂_mem_left hall hi
      exact (traverse_eq_nil_iff hrun).mp (hnil ps hps)
    · intro h ps hps
      obtain ⟨i, hi, fuel, hrun⟩ := Lib.forall₂_mem_right hall hps
      exact (traverse_eq_nil_iff hrun).mpr (h i hi)
  · obtain ⟨ps, hps, hq⟩ := List.mem_flatten.mp hq
    obtain ⟨i, hi, fuel, hrun⟩ := Lib.forall₂_mem_right hall hps
    exact ⟨i, hi, problematic_of_traverse hrun q hq⟩

/-! ## Building the graph -/

@[simp] theorem edges_addNode {path : PathBuf} {pragma usage : Bool} (g : PathBuf) :
    (self.addNode path pragma usage).edges g = self.edges g := rfl

theorem edges_addEdge {fs : FileSystem} {graph : IncludesGraph} {path : PathBuf} (hpath : path ∈ fs.files)
    (h : self.addEdge fs path = .ok graph) :
    graph.nodes = self.nodes ∧ graph.customGatesNodes = self.customGatesNodes ∧
      ∀ g j, j ∈ graph.edges g ↔ j ∈ self.edges g ∨ g = path ∧ j = self.nodes.length - 1 := by
  unfold addEdge at h
  rw [FileSystem.canonicalize_of_mem hpath] at h
  cases h
  refine ⟨rfl, rfl, fun g j => ?_⟩
  unfold edges
  dsimp only
  by_cases hg : g = path
  · subst hg
    rw [AList.lookup_insert, Option.getD_some, List.mem_append, List.mem_singleton]
    exact or_congr_right (iff_and_self.mpr fun _ => rfl)
  · rw [AList.lookup_insert_ne hg]
    exact ⟨Or.inl, fun h => h.resolve_right fun h => hg h.1⟩

end IncludesGraph

namespace Setting

variable {M D : Type} {self : Setting M D}

/-- The loop over the includes adds an edge from each of them to the last node. -/
theorem graph_addIncludes {s s' : FileStack} {graph graph' : IncludesGraph} {names : List String}
    {paths : List PathBuf} (h : self.addIncludes s graph names = .ok (paths, s', graph')) :
    graph'.nodes = graph.nodes ∧ graph'.customGatesNodes = graph.customGatesNodes ∧
      ∀ g j, j ∈ graph'.edges g ↔ j ∈ graph.edges g ∨ g ∈ paths ∧ j = graph.nodes.length - 1 := by
  induction names generalizing s graph paths with
  | nil =>
    cases h
    simp
  | cons name names ih =>
    unfold addIncludes at h
    obtain ⟨⟨s₁, path⟩, hadd, h⟩ := Lib.bind_eq_ok h
    obtain ⟨graph₁, hedge, h⟩ := Lib.bind_eq_ok h
    obtain ⟨⟨gs, s₂, graph₂⟩, hrest, h⟩ := Lib.bind_eq_ok h
    cases h
    have hfile := FileStack.mem_files_of_findInclude (FileStack.addInclude_spec hadd).1
    obtain ⟨hnodes, hgates, hedges⟩ := IncludesGraph.edges_addEdge hfile hedge
    obtain ⟨hnodes', hgates', hedges'⟩ := ih hrest
    refine ⟨hnodes'.trans hnodes, hgates'.trans hgates, fun g j => ?_⟩
    rw [hedges', hedges, hnodes, List.mem_cons]
    tauto

/-- The graph has a node for each path that was taken and an edge for each include. -/
structure GraphOf (setting : Setting M D) (taken : List Entry) (graph : IncludesGraph) : Prop where
  nodes : List.Forall₂ (fun e node => ∃ ast, setting.Opens e.1 node.path ast ∧
    node.customGatesPragma = ast.customGates) taken graph.nodes
  gates : ∀ i, i ∈ graph.customGatesNodes ↔ ∃ e x ast, taken[i]? = some e ∧ setting.Opens e.1 x ast ∧
    ast.customGatesDeclared = true
  edges : ∀ g j, j ∈ graph.edges g ↔ ∃ e, taken[j]? = some e ∧ g ∈ e.2

theorem Opens.unique {x' : PathBuf} {ast ast' : AST M D} (h : self.Opens p x ast) (h' : self.Opens p x' ast') :
    x = x' ∧ ast = ast' := by
  obtain ⟨found, hfound, rfl, hast⟩ := h
  obtain ⟨found', hfound', rfl, hast'⟩ := h'
  cases hfound.symm.trans hfound'
  cases hast.symm.trans hast'
  exact ⟨rfl, rfl⟩

theorem GraphOf.step {taken : List Entry} {gs : List PathBuf} {st st' : LoopState M D} {fileStack : FileStack}
    (h : self.GraphOf taken st.includesGraph)
    (hparse : self.parseNext p { st with fileStack := fileStack } = .ok (st', gs)) :
    self.GraphOf (taken ++ [(p, gs)]) st'.includesGraph := by
  obtain ⟨x, ast, hopens, hadd⟩ := parseNext_spec hparse
  obtain ⟨hnodes, hgates, hedges⟩ := graph_addIncludes hadd
  have hlength := h.nodes.length_eq
  have hlast : ∀ {i : ℕ} {e : Entry}, (taken ++ [(p, gs)])[i]? = some e ↔
      taken[i]? = some e ∨ i = taken.length ∧ e = (p, gs) := by
    intro i e
    rw [List.getElem?_append]
    split_ifs with hi
    · simp [hi.ne]
    · rw [List.getElem?_eq_none (not_lt.mp hi)]
      rcases Nat.lt_or_ge taken.length i with hlt | hge
      · rw [List.getElem?_eq_none (by simp; omega)]
        simp [hlt.ne']
      · obtain rfl : i = taken.length := le_antisymm hge (not_lt.mp hi)
        simp [eq_comm]
  refine ⟨?_, fun i => ?_, fun g j => ?_⟩
  · rw [hnodes]
    exact List.rel_append h.nodes (List.Forall₂.cons ⟨ast, hopens, rfl⟩ List.Forall₂.nil)
  · rw [hgates]
    simp only [hlast, or_and_right, exists_or, ← h.gates i]
    show (i ∈ if ast.customGatesDeclared then st.includesGraph.customGatesNodes ++ [st.includesGraph.nodes.length]
      else st.includesGraph.customGatesNodes) ↔ _
    constructor
    · intro hi
      split_ifs at hi with hdeclared
      · rcases List.mem_append.mp hi with hi | hi
        · exact Or.inl hi
        · exact Or.inr ⟨(p, gs), x, ast, ⟨(List.mem_singleton.mp hi).trans hlength.symm, rfl⟩, hopens, hdeclared⟩
      · exact Or.inl hi
    · rintro (hi | ⟨e, x', ast', ⟨rfl, rfl⟩, hopens', hdeclared⟩)
      · split_ifs
        · exact List.mem_append_left _ hi
        · exact hi
      · rw [(hopens.unique hopens').2, if_pos hdeclared, hlength]
        exact List.mem_append_right _ (List.mem_singleton_self _)
  · rw [hedges, IncludesGraph.edges_addNode, h.edges]
    simp only [hlast, or_and_right, exists_or]
    refine or_congr_right ?_
    show g ∈ gs ∧ j = (st.includesGraph.nodes ++ [_]).length - 1 ↔ _
    rw [List.length_append, hlength]
    constructor
    · rintro ⟨hg, rfl⟩
      exact ⟨(p, gs), ⟨rfl, rfl⟩, hg⟩
    · rintro ⟨e, ⟨rfl, rfl⟩, hg⟩
      exact ⟨hg, rfl⟩

theorem graphOf_start (file : PathBuf) : self.GraphOf [] (start (M := M) (D := D) file).includesGraph where
  nodes := List.Forall₂.nil
  gates i := by
    show i ∈ [] ↔ _
    simp
  edges g j := by
    show j ∈ ((∅ : Lib.HashMap PathBuf (List ℕ)).lookup g).getD [] ↔ _
    simp

section Graph

variable {taken : List Entry} {graph : IncludesGraph} (h : self.GraphOf taken graph)

include h

/-- A node is the one of a path that was taken. -/
theorem GraphOf.node {node : IncludesNode} (hi : graph.nodes[i]? = some node) :
    ∃ e ast, taken[i]? = some e ∧ e ∈ taken ∧ self.Opens e.1 node.path ast ∧
      node.customGatesPragma = ast.customGates := by
  obtain ⟨hlt, rfl⟩ := List.getElem?_eq_some_iff.mp hi
  have hlt' : i < taken.length := by
    rw [h.nodes.length_eq]
    exact hlt
  obtain ⟨ast, hopens, hpragma⟩ := h.nodes.get hlt' hlt
  exact ⟨taken[i], ast, List.getElem?_eq_getElem hlt', List.getElem_mem hlt', hopens, hpragma⟩

/-- A path that was taken has its node. -/
theorem GraphOf.exists_node {e : Entry} {ast : AST M D} (hi : taken[i]? = some e) (hopens : self.Opens e.1 x ast) :
    ∃ node, graph.nodes[i]? = some node ∧ node.path = x ∧ node.customGatesPragma = ast.customGates := by
  obtain ⟨hlt, rfl⟩ := List.getElem?_eq_some_iff.mp hi
  have hlt' : i < graph.nodes.length := by
    rw [← h.nodes.length_eq]
    exact hlt
  obtain ⟨ast', hopens', hpragma⟩ := h.nodes.get hlt hlt'
  obtain ⟨heq, rfl⟩ := hopens.unique hopens'
  exact ⟨graph.nodes[i], List.getElem?_eq_getElem hlt', heq.symm, hpragma⟩

theorem GraphOf.closed : graph.Closed := by
  intro g j hj
  obtain ⟨e, he, -⟩ := (h.edges g j).mp hj
  rw [← h.nodes.length_eq]
  exact (List.getElem?_eq_some_iff.mp he).1

theorem GraphOf.gatesClosed : graph.GatesClosed := by
  intro i hi
  obtain ⟨e, x, ast, he, -⟩ := (h.gates i).mp hi
  rw [← h.nodes.length_eq]
  exact (List.getElem?_eq_some_iff.mp he).1

end Graph

/-! ## The check -/

variable (self) in
/-- The path under which a file was read. -/
def Read (taken : List Entry) (x : PathBuf) : Prop := ∃ e ∈ taken, ∃ ast, self.Opens e.1 x ast

variable (self) in
/-- The file that was read as `x` includes the file `g`. -/
def IncludesFile (taken : List Entry) (x g : PathBuf) : Prop :=
  ∃ e ∈ taken, (∃ ast, self.Opens e.1 x ast) ∧ g ∈ e.2

variable (self) in
def Declares (x : PathBuf) : Prop := ∃ ast, self.parsed x = some ast ∧ ast.customGatesDeclared = true

variable (self) in
def HasPragma (x : PathBuf) : Prop := ∃ ast, self.parsed x = some ast ∧ ast.customGates = true

theorem Opens.parsed {ast : AST M D} (h : self.Opens p x ast) : self.parsed x = some ast := by
  obtain ⟨f, -, -, hx, hparsed⟩ := h.file
  unfold Setting.parsed at hparsed ⊢
  rw [← FileSystem.readToString_canonical hx]
  exact hparsed

theorem Opens.hasPragma_iff {ast : AST M D} (h : self.Opens p x ast) : self.HasPragma x ↔ ast.customGates = true := by
  unfold HasPragma
  rw [h.parsed]
  simp

theorem Opens.declares_iff {ast : AST M D} (h : self.Opens p x ast) :
    self.Declares x ↔ ast.customGatesDeclared = true := by
  unfold Declares
  rw [h.parsed]
  simp

section Graph

variable {taken : List Entry} {graph : IncludesGraph} (h : self.GraphOf taken graph)

include h

/-- An edge of the graph is an include. -/
theorem GraphOf.includesFile {j : ℕ} (hij : graph.Edge i j) :
    ∃ node node', graph.nodes[i]? = some node ∧ graph.nodes[j]? = some node' ∧
      self.IncludesFile taken node'.path node.path := by
  obtain ⟨node, hi, hj⟩ := hij
  obtain ⟨e, he, hmem⟩ := (h.edges node.path j).mp hj
  obtain ⟨node', hnode'⟩ : ∃ node', graph.nodes[j]? = some node' :=
    ⟨_, List.getElem?_eq_getElem (h.closed _ j hj)⟩
  obtain ⟨e', ast, he', hmem', hopens, -⟩ := h.node hnode'
  cases he.symm.trans he'
  exact ⟨node, node', hi, hnode', e, hmem', ⟨ast, hopens⟩, hmem⟩

theorem GraphOf.reflTransGen {k : ℕ} {node node' : IncludesNode} (hik : ReflTransGen graph.Edge i k)
    (hi : graph.nodes[i]? = some node) (hk : graph.nodes[k]? = some node') :
    ReflTransGen (self.IncludesFile taken) node'.path node.path := by
  induction hik generalizing node' with
  | refl =>
    cases hi.symm.trans hk
    exact ReflTransGen.refl
  | tail _ hjk ih =>
    obtain ⟨node₁, node₂, hnode₁, hnode₂, hincludes⟩ := h.includesFile hjk
    cases hk.symm.trans hnode₂
    exact ReflTransGen.head hincludes (ih hnode₁)

/-- A chain of includes is a chain of edges, from every node of the file at its end. -/
theorem GraphOf.exists_edges {node : IncludesNode} (hx : ReflTransGen (self.IncludesFile taken) x d)
    (hi : graph.nodes[i]? = some node) (hd : node.path = d) :
    ∃ k node', ReflTransGen graph.Edge i k ∧ graph.nodes[k]? = some node' ∧ node'.path = x := by
  induction hx using ReflTransGen.head_induction_on with
  | refl => exact ⟨i, node, ReflTransGen.refl, hi, hd⟩
  | head hxy _ ih =>
    obtain ⟨k, node', hik, hk, rfl⟩ := ih
    obtain ⟨e, he, ⟨ast, hopens⟩, hmem⟩ := hxy
    obtain ⟨j, hj⟩ := List.mem_iff_getElem?.mp he
    obtain ⟨node₁, hnode₁, hpath, -⟩ := h.exists_node hj hopens
    exact ⟨j, node₁, hik.tail ⟨node', hk, (h.edges _ j).mpr ⟨e, hj, hmem⟩⟩, hnode₁, hpath⟩

/-- The paths of a chain of edges. -/
theorem GraphOf.isChain {k : ℕ} {l : List PathBuf} {node node' : IncludesNode} (hl : graph.Chain i l k)
    (hi : graph.nodes[i]? = some node) (hk : graph.nodes[k]? = some node') :
    l.IsChain (fun x y => self.IncludesFile taken y x) ∧ l.head? = some node.path ∧
      l.getLast? = some node'.path := by
  induction hl generalizing node with
  | here hi' =>
    cases hi.symm.trans hi'
    cases hi.symm.trans hk
    exact ⟨List.isChain_singleton _, rfl, rfl⟩
  | @step i j k node₀ l hi' hj hl ih =>
    cases hi.symm.trans hi'
    obtain ⟨_, node₁, hnode, hnode₁, hincludes⟩ := h.includesFile ⟨_, hi, hj⟩
    cases hi.symm.trans hnode
    obtain ⟨hchain, hhead, hlast⟩ := ih hnode₁ hk
    obtain ⟨x, l, rfl⟩ : ∃ x l', l = x :: l' := by
      cases l with
      | nil => cases hhead
      | cons x l => exact ⟨x, l, rfl⟩
    cases hhead
    exact ⟨List.isChain_cons_cons.mpr ⟨hincludes, hchain⟩, rfl, hlast⟩

/-- The check on the graph says what the includes say. -/
theorem GraphOf.problematic_iff :
    (∀ i ∈ graph.customGatesNodes, ∀ k node, ReflTransGen graph.Edge i k → graph.nodes[k]? = some node →
        node.customGatesPragma = true) ↔
      ∀ x d, self.Read taken d → self.Declares d → ReflTransGen (self.IncludesFile taken) x d → self.HasPragma x := by
  constructor
  · intro hall x d hread hdeclares hx
    obtain ⟨e, he, ast, hopens⟩ := hread
    obtain ⟨i, hi⟩ := List.mem_iff_getElem?.mp he
    obtain ⟨node, hnode, hpath, -⟩ := h.exists_node hi hopens
    obtain ⟨k, node', hik, hk, rfl⟩ := h.exists_edges hx hnode hpath
    obtain ⟨e', ast', -, -, hopens', hpragma⟩ := h.node hk
    rw [hopens'.hasPragma_iff, ← hpragma]
    exact hall i ((h.gates i).mpr ⟨e, d, ast, hi, hopens, hopens.declares_iff.mp hdeclares⟩) k node' hik hk
  · intro hall i hi k node hik hk
    obtain ⟨e, x, ast, he, hopens, hdeclared⟩ := (h.gates i).mp hi
    obtain ⟨node₀, hnode₀, rfl, -⟩ := h.exists_node he hopens
    obtain ⟨e', ast', -, -, hopens', hpragma⟩ := h.node hk
    rw [hpragma, ← hopens'.hasPragma_iff]
    exact hall node.path node₀.path ⟨e, List.mem_of_getElem? he, ast, hopens⟩ (hopens.declares_iff.mpr hdeclared)
      (h.reflTransGen hik hnode₀ hk)

end Graph

/-! ## Files -/

section Files

variable {file : PathBuf} {taken : List Entry} {st : LoopState M D}

theorem Read.parsed (hx : self.Read taken x) (hf : self.fs.canonicalize x = some f) :
    self.parsed f = self.parsed x := by
  obtain ⟨e, -, ast, hopens⟩ := hx
  unfold Setting.parsed
  rw [FileSystem.readToString_canonical hf]

/-- A chain of includes between files is one between the paths under which they were read. -/
theorem includesFile_of_includes (hrun : self.Running file taken st) (hend : st.fileStack.takeNext = none)
    (hfinds : self.FindsIncludes file) {e : Entry} {ast : AST M D} (he : e ∈ taken) (hopens : self.Opens e.1 x ast)
    (hf : self.fileOf e.1 = some f) (hfd : TransGen self.Includes f d) :
    self.Read taken d ∧ ReflTransGen (self.IncludesFile taken) x d := by
  have hstep : ∀ e ∈ taken, ∀ f g, self.fileOf e.1 = some f → self.Includes f g →
      g ∈ e.2 ∧ ∃ e' ∈ taken, ∃ ast', e'.1 = g ∧ self.Opens e'.1 g ast' ∧ self.fileOf e'.1 = some g := by
    rintro e he f g hf ⟨name, hname, hresolve⟩
    have hmem : some g ∈ e.2.map some := by
      rw [hrun.relative hfinds e he f hf]
      exact List.mem_map.mpr ⟨name, hname, hresolve⟩
    obtain ⟨g', hg, heq⟩ := List.mem_map.mp hmem
    cases heq
    obtain ⟨e', he', rfl⟩ := hrun.taken hend (Or.inr ⟨e, he, hg⟩)
    obtain ⟨x', ast', hopens', -⟩ := hrun.entries e' he'
    have hfile := mem_files_of_resolve hresolve
    obtain rfl := hopens'.eq_of_mem hfile
    obtain ⟨f', hf', hcanonical, -⟩ := hrun.exists_file he'
    rw [hcanonical hfile] at hf'
    exact ⟨hg, e', he', ast', rfl, hopens', hf'⟩
  induction hfd using TransGen.head_induction_on generalizing e x ast with
  | single hfd =>
    obtain ⟨hd, e', he', ast', -, hopens', -⟩ := hstep e he _ _ hf hfd
    exact ⟨⟨e', he', ast', hopens'⟩, ReflTransGen.single ⟨e, he, ⟨ast, hopens⟩, hd⟩⟩
  | head hfg _ ih =>
    obtain ⟨hg, e', he', ast', -, hopens', hf'⟩ := hstep e he _ _ hf hfg
    obtain ⟨hread, htrans⟩ := ih he' hopens' hf'
    exact ⟨hread, ReflTransGen.head ⟨e, he, ⟨ast, hopens⟩, hg⟩ htrans⟩

/-- A chain of includes between paths under which files were read is one between the files. -/
theorem includes_of_includesFile (hrun : self.Running file taken st) (hfinds : self.FindsIncludes file)
    (hxd : ReflTransGen (self.IncludesFile taken) x d) (hf : self.fs.canonicalize x = some f) :
    ∃ g, self.fs.canonicalize d = some g ∧ ReflTransGen self.Includes f g := by
  induction hxd using ReflTransGen.head_induction_on generalizing f with
  | refl => exact ⟨f, hf, ReflTransGen.refl⟩
  | @head x y hxy _ ih =>
    obtain ⟨e, he, ⟨ast, hopens⟩, hy⟩ := hxy
    have hmem := hrun.mem_files he hy
    obtain ⟨f', -, hfileOf, hx, -⟩ := hopens.file
    cases hf.symm.trans hx
    have hsome : some y ∈ e.2.map some := List.mem_map_of_mem hy
    rw [hrun.relative hfinds e he f hfileOf] at hsome
    obtain ⟨name, hname, hresolve⟩ := List.mem_map.mp hsome
    obtain ⟨g, hg, htrans⟩ := ih (FileSystem.canonicalize_of_mem hmem)
    exact ⟨g, hg, ReflTransGen.head ⟨name, hname, hresolve⟩ htrans⟩

/-- It is the same to ask for the pragma in the files and under the paths by which they were read. -/
theorem Running.hasPragma_iff (hrun : self.Running file taken st) (hend : st.fileStack.takeNext = none)
    (hfinds : self.FindsIncludes file) (hincluded : self.RunningIncluded file taken st) :
    (∀ x d, self.Read taken d → self.Declares d → ReflTransGen (self.IncludesFile taken) x d → self.HasPragma x) ↔
      ∀ main f d, self.fileOf file = some main → ReflTransGen self.Includes main f → self.Declares d →
        ReflTransGen self.Includes f d → self.HasPragma f := by
  constructor
  · intro hall main f d hmain hreach hdeclares hfd
    obtain ⟨e, he, hf⟩ : ∃ e ∈ taken, self.fileOf e.1 = some f := by
      rcases Relation.reflTransGen_iff_eq_or_transGen.mp hreach with rfl | htrans
      · obtain ⟨e, he, rfl⟩ := hrun.taken hend (Or.inl rfl)
        exact ⟨e, he, hmain⟩
      · obtain ⟨e, he, rfl⟩ := hrun.taken_of_trans hend (hrun.relative hfinds) hmain htrans
        obtain ⟨f, hf, hcanonical, -⟩ := hrun.exists_file he
        rw [hcanonical (mem_files_of_trans htrans)] at hf
        exact ⟨e, he, hf⟩
    obtain ⟨x, ast, hopens, -⟩ := hrun.entries e he
    obtain ⟨f', -, hf', hx, -⟩ := hopens.file
    cases hf.symm.trans hf'
    have hread : self.Read taken x := ⟨e, he, ast, hopens⟩
    unfold HasPragma
    rw [hread.parsed hx]
    rcases Relation.reflTransGen_iff_eq_or_transGen.mp hfd with rfl | htrans
    · refine hall x x hread ?_ ReflTransGen.refl
      unfold Declares
      rw [← hread.parsed hx]
      exact hdeclares
    · obtain ⟨hreadd, hxd⟩ := includesFile_of_includes hrun hend hfinds he hopens hf htrans
      exact hall x d hreadd hdeclares hxd
  · intro hall x d hreadd hdeclares hxd
    have hread : self.Read taken x := by
      rcases hxd.cases_head with rfl | ⟨y, ⟨e, he, hopens, -⟩, -⟩
      · exact hreadd
      · exact ⟨e, he, hopens⟩
    obtain ⟨e, he, ast, hopens⟩ := hread
    obtain ⟨f, -, hf, hx, -⟩ := hopens.file
    obtain ⟨main, hmain, hreach⟩ := reachable_of_included (hincluded.included_of_mem he) hf
    obtain ⟨g, hg, hfg⟩ := includes_of_includesFile hrun hfinds hxd hx
    unfold HasPragma
    rw [← Read.parsed ⟨e, he, ast, hopens⟩ hx]
    refine hall main f g hmain hreach ?_ hfg
    unfold Declares
    rw [hreadd.parsed hg]
    exact hdeclares

end Files

/-- The traversal ends, and it finds no path if and only if every file that declares custom templates, and every file
that includes such a file, directly or through others, has the pragma. Every path starts at a declaring file, follows
the includes backwards and ends at a file without the pragma. Files are named by the paths under which they were read;
when the main file finds its includes from its own directory, the same holds of the files themselves. -/
theorem getProblematicPaths_exact (self : Setting M D) (file : PathBuf) :
    ∃ taken result, (∀ n, self.fs.files.len + 1 < n → self.parseLoop n (start file) = some (taken, result)) ∧
      ∀ st, result = .ok st → ∃ paths,
        (∀ fuel, st.includesGraph.nodes.length * st.includesGraph.nodes.length < fuel →
          st.includesGraph.getProblematicPaths fuel = some paths) ∧
        (paths = [] ↔ ∀ x d, self.Read taken d → self.Declares d → ReflTransGen (self.IncludesFile taken) x d →
          self.HasPragma x) ∧
        (∀ q ∈ paths, q.IsChain (fun x y => self.IncludesFile taken y x) ∧
          (∃ d, q.head? = some d ∧ self.Read taken d ∧ self.Declares d) ∧
          ∃ x, q.getLast? = some x ∧ self.Read taken x ∧ ¬self.HasPragma x) ∧
        (self.FindsIncludes file → (paths = [] ↔ ∀ main f d, self.fileOf file = some main →
          ReflTransGen self.Includes main f → self.Declares d → ReflTransGen self.Includes f d →
            self.HasPragma f)) := by
  have hstart := self.running_start file
  obtain ⟨⟨taken, result⟩, hreturns⟩ := parseLoop_returns (self.fs.files.len + 1) hstart
    ((Finset.card_le_card Finset.sdiff_subset).trans (card_candidates_le file))
  refine ⟨taken, result, hreturns, ?_⟩
  rintro st rfl
  have hloop := hreturns _ (Nat.lt_succ_self _)
  obtain ⟨⟨hrun, hgraph⟩, hend⟩ := parseLoop_induction
    (P := fun taken st => self.Running file taken st ∧ self.GraphOf taken st.includesGraph)
    (fun taken st p fileStack st' gs h hnext hparse => ⟨h.1.step hnext hparse, h.2.step hparse⟩)
    ⟨hstart, self.graphOf_start file⟩ hloop
  rw [List.nil_append] at hrun hgraph
  obtain ⟨paths, hpaths, hnil, hmem⟩ := st.includesGraph.getProblematicPaths_spec hgraph.closed hgraph.gatesClosed
  rw [hgraph.problematic_iff] at hnil
  refine ⟨paths, hpaths, hnil, fun q hq => ?_, fun hfinds => hnil.trans ?_⟩
  · obtain ⟨i, hi, l, k, node, rfl, hchain, hk, hpragma⟩ := hmem q hq
    obtain ⟨e, x, ast, he, hopens, hdeclared⟩ := (hgraph.gates i).mp hi
    obtain ⟨node₀, hnode₀, rfl, -⟩ := hgraph.exists_node he hopens
    obtain ⟨e', ast', -, he', hopens', hpragma'⟩ := hgraph.node hk
    obtain ⟨hincludes, hhead, hlast⟩ := hgraph.isChain hchain hnode₀ hk
    refine ⟨hincludes, ⟨node₀.path, hhead, ⟨e, List.mem_of_getElem? he, ast, hopens⟩,
      hopens.declares_iff.mpr hdeclared⟩, node.path, hlast, ⟨e', he', ast', hopens'⟩, ?_⟩
    rw [hopens'.hasPragma_iff, ← hpragma', hpragma]
    simp
  · exact hrun.hasPragma_iff hend hfinds (ends_runningIncluded hfinds hloop).1

end Setting

end Circom.Parser.IncludeLogic
