import Circom.ConstraintList.CustomGates
import Circom.ConstraintList.Proofs.Unfolding

/-!
# The sections of the custom gates

When custom gates have no subcomponents and their signals have positions, the applications are those of the instances
of custom gates, in the order of the walk, and each index leads to a usage that was made of a node of the same name.
-/

namespace Circom.ConstraintList

open Circom.ConstraintWriters (CustomGatesAppliedData CustomGatesUsedData)
open Circom.Lib (LayeredGraph exists_mapM exists_of_forall₂_right forall₂_comp getElem?_of_forall₂)

variable {encoding : DAGEncoding} {map : SignalMap}

/-! ## Usages -/

/-- What the pops leave of a name with one parenthesis. -/
theorem popParenthesis_eq {name : String} {id rest : List Char} (hname : name.toList = id ++ '(' :: rest)
    (hrest : '(' ∉ rest) : popParenthesis name = some (String.ofList id) := by
  have hdrop : name.toList.reverse.dropWhile (· != '(') = '(' :: id.reverse := by
    rw [hname, List.reverse_append, List.reverse_cons, List.append_assoc, List.dropWhile_append_of_pos]
    · rfl
    · intro c hc
      have hne : c ≠ '(' := fun heq => hrest (heq ▸ List.mem_reverse.mp hc)
      exact bne_iff_ne.mpr hne
  rw [popParenthesis, hdrop]
  simp only [List.reverse_reverse]

/-- The usage of the node of that name with the smallest number. -/
structure UsedFirst (encoding : DAGEncoding) (usages : CustomGatesUsedData) (name : String) (index : ℕ) : Prop where
  exists_node : ∃ node ∈ encoding.nodes, node.isCustomGate = true ∧ node.name = name ∧
    ∃ templateName, popParenthesis name = some templateName ∧ usages[index]? = some (templateName, node.parameters)

theorem usageData_spec
    (hnames : ∀ node ∈ encoding.nodes, node.isCustomGate = true → ∃ name, popParenthesis node.name = some name) :
    ∃ usages occurringOrder, usageData encoding = some (usages, occurringOrder) ∧
      ∀ node ∈ encoding.nodes, node.isCustomGate = true →
        ∃ index, occurringOrder.findIdx? (· == node.name) = some index ∧ UsedFirst encoding usages node.name index := by
  have hgates : ∀ node ∈ encoding.nodes.filter (·.isCustomGate), ∃ usage : String × List ℤ,
      ((popParenthesis node.name).bind fun name => some (name, node.parameters)) = some usage ∧
        popParenthesis node.name = some usage.1 ∧ usage.2 = node.parameters := by
    intro node hnode
    obtain ⟨hmem, hgate⟩ := List.mem_filter.mp hnode
    obtain ⟨name, hname⟩ := hnames node hmem hgate
    exact ⟨(name, node.parameters), by rw [hname, Option.bind_some], hname, rfl⟩
  obtain ⟨usages, husages, hforall⟩ := exists_mapM hgates
  refine ⟨usages, _, by rw [usageData]; exact Option.bind_eq_some_iff.mpr ⟨usages, husages, rfl⟩, ?_⟩
  intro node hnode hgate
  have hmem : node.name ∈ (encoding.nodes.filter (·.isCustomGate)).map (·.name) :=
    List.mem_map_of_mem (List.mem_filter.mpr ⟨hnode, hgate⟩)
  cases hindex : ((encoding.nodes.filter (·.isCustomGate)).map (·.name)).findIdx? (· == node.name) with
  | none =>
    have := List.findIdx?_eq_none_iff.mp hindex node.name hmem
    simp at this
  | some index =>
    refine ⟨index, rfl, ?_⟩
    obtain ⟨hlt, hfound, -⟩ := List.findIdx?_eq_some_iff_getElem.mp hindex
    rw [List.length_map] at hlt
    have hget := List.getElem?_eq_getElem hlt
    obtain ⟨⟨templateName, parameters⟩, husage, hpop, rfl⟩ := getElem?_of_forall₂ hforall hget
    obtain ⟨hfirst, hfirstGate⟩ := List.mem_filter.mp (List.getElem_mem hlt)
    have hname : (encoding.nodes.filter (·.isCustomGate))[index].name = node.name := by
      rw [List.getElem_map] at hfound
      exact beq_iff_eq.mp hfound
    rw [hname] at hpop
    exact ⟨_, hfirst, hfirstGate, hname, templateName, hpop, husage⟩

/-! ## Applications -/

/-- Custom gates have no edges. -/
def DAGEncoding.GatesAreLeaves (encoding : DAGEncoding) : Prop :=
  ∀ (n : ℕ) node, encoding.nodes[n]? = some node → node.isCustomGate = true → encoding.adjacency[n]? = some []

/-- The instance belongs to a custom gate. -/
def DAGEncoding.isGate (encoding : DAGEncoding) (i : ℕ × ℕ) : Bool :=
  ((encoding.nodes[i.1]?).map (·.isCustomGate)).getD false

/-- The name and the positions are those of the instance. -/
def AppliesNode (encoding : DAGEncoding) (map : SignalMap) (i : ℕ × ℕ) (data : String × List ℕ) : Prop :=
  ∃ node, encoding.nodes[i.1]? = some node ∧ node.isCustomGate = true ∧ data.1 = node.name ∧
    List.Forall₂ (fun signal position => map.lookup (signal + i.2) = some position) node.orderedSignals data.2

/-- The signals of an instance of a custom gate have positions. -/
def HasPositions (encoding : DAGEncoding) (map : SignalMap) (i : ℕ × ℕ) : Prop :=
  ∀ node, encoding.nodes[i.1]? = some node → node.isCustomGate = true → ∀ signal ∈ node.orderedSignals,
    signal + i.2 ∈ map

theorem represents_edgesToVisit (hleaves : encoding.GatesAreLeaves) :
    encoding.graph.Represents edgesToVisit EncodingIterator.next (fun e => (e.goesTo, e.offset))
      (IsIterator encoding) := by
  have hrep := EncodingIterator.represents encoding
  have hedges : ∀ iterator n offset, IsIterator encoding iterator n offset →
      edgesToVisit iterator = iterator.edges := by
    intro iterator n offset h
    obtain ⟨node, hnode⟩ : ∃ node, encoding.nodes[n]? = some node := ⟨_, List.getElem?_eq_getElem h.lt⟩
    rw [edgesToVisit, h.encoding_eq, h.nodeId_eq, hnode]
    show (if node.isCustomGate = true then some [] else iterator.edges) = _
    split_ifs with hgate
    · rw [EncodingIterator.edges, h.encoding_eq, h.nodeId_eq]
      exact (hleaves n _ hnode hgate).symm
    · rfl
  constructor
  · intro iterator n offset h
    rw [hedges iterator n offset h]
    exact hrep.edges_eq iterator n offset h
  · intro iterator n offset es h hes
    rw [hedges iterator n offset h] at hes
    exact hrep.next_rep iterator n offset es h hes

/-- The visit of an instance. -/
def visitInstance (encoding : DAGEncoding) (map : SignalMap) (applicationData : List (String × List ℕ)) (i : ℕ × ℕ) :
    Option (List (String × List ℕ)) :=
  (encoding.nodes[i.1]?).bind fun node =>
    if node.isCustomGate then (node.orderedSignals.mapM fun signal => map.lookup (signal + i.2)).bind fun signals =>
      some (applicationData ++ [(node.name, signals)])
    else some applicationData

theorem visitInstance_spec {i : ℕ × ℕ} (hi : i.1 < encoding.nodes.length) (hsignals : HasPositions encoding map i)
    (applicationData : List (String × List ℕ)) :
    ∃ data, visitInstance encoding map applicationData i = some (applicationData ++ data) ∧
      List.Forall₂ (AppliesNode encoding map) ([i].filter encoding.isGate) data := by
  have hnode := List.getElem?_eq_getElem hi
  have hisGate : encoding.isGate i = encoding.nodes[i.1].isCustomGate := by
    rw [DAGEncoding.isGate, hnode]
    rfl
  rw [visitInstance, hnode, Option.bind_some]
  by_cases hgate : encoding.nodes[i.1].isCustomGate = true
  · have hpositions : ∀ signal ∈ encoding.nodes[i.1].orderedSignals, ∃ position,
        map.lookup (signal + i.2) = some position ∧ map.lookup (signal + i.2) = some position := by
      intro signal hsignal
      obtain ⟨position, h⟩ := AList.mem_iff_exists_lookup.mp (hsignals _ hnode hgate signal hsignal)
      exact ⟨position, h, h⟩
    obtain ⟨positions, hpositions, hforall⟩ := exists_mapM hpositions
    refine ⟨[(encoding.nodes[i.1].name, positions)], ?_, ?_⟩
    · rw [if_pos hgate, hpositions, Option.bind_some]
    · rw [List.filter_cons_of_pos (by rw [hisGate, hgate]), List.filter_nil]
      exact .cons ⟨_, hnode, hgate, rfl, hforall⟩ .nil
  · refine ⟨[], ?_, ?_⟩
    · rw [if_neg hgate, List.append_nil]
    · rw [List.filter_cons_of_neg (by rw [hisGate]; exact hgate), List.filter_nil]
      exact .nil

theorem foldlM_visitInstance {l : List (ℕ × ℕ)}
    (hl : ∀ i ∈ l, i.1 < encoding.nodes.length ∧ HasPositions encoding map i)
    (applicationData : List (String × List ℕ)) :
    ∃ data, l.foldlM (visitInstance encoding map) applicationData = some (applicationData ++ data) ∧
      List.Forall₂ (AppliesNode encoding map) (l.filter encoding.isGate) data := by
  induction l generalizing applicationData with
  | nil => exact ⟨[], by rw [List.append_nil]; rfl, .nil⟩
  | cons i l ih =>
    rw [List.forall_mem_cons] at hl
    obtain ⟨data, hvisit, hdata⟩ := visitInstance_spec hl.1.1 hl.1.2 applicationData
    obtain ⟨data', hrest, hdata'⟩ := ih hl.2 (applicationData ++ data)
    refine ⟨data ++ data', ?_, ?_⟩
    · rw [List.foldlM_cons, hvisit, ← List.append_assoc]
      exact hrest
    · rw [← List.singleton_append, List.filter_append]
      exact List.rel_append hdata hdata'

theorem iterate_spec (hleaves : encoding.GatesAreLeaves)
    (hsignals : ∀ i ∈ encoding.graph.instances encoding.init 0, HasPositions encoding map i) :
    ∃ iterator data, EncodingIterator.new encoding = some iterator ∧ iterate iterator map [] = some data ∧
      List.Forall₂ (AppliesNode encoding map)
        ((encoding.graph.instances encoding.init 0).filter encoding.isGate) data := by
  obtain ⟨iterator, hnew, hiterator⟩ := EncodingIterator.new_spec encoding
  have hvisit : ∀ data it n offset, IsIterator encoding it n offset →
      visitGate map data it = visitInstance encoding map data (n, offset) := by
    intro data it n offset h
    rw [visitGate, visitInstance, h.encoding_eq, h.nodeId_eq, h.offset_eq]
    rfl
  obtain ⟨data, hdata, hforall⟩ := foldlM_visitInstance (fun i hi =>
    ⟨lt_of_le_of_lt (encoding.graph.instance_le hi) encoding.init_lt, hsignals i hi⟩) []
  refine ⟨iterator, data, hnew, ?_, hforall⟩
  rw [iterate, hiterator.nodeId_eq, encoding.graph.walk_eq (represents_edgesToVisit hleaves) hvisit encoding.init 0 _ _
    iterator (Nat.lt_succ_self _) hiterator]
  exact hdata

/-- The application of an instance, with the usage that its index leads to. -/
def AppliesInstance (encoding : DAGEncoding) (map : SignalMap) (usages : CustomGatesUsedData) (i : ℕ × ℕ)
    (application : ℕ × List ℕ) : Prop :=
  ∃ node, encoding.nodes[i.1]? = some node ∧ node.isCustomGate = true ∧
    UsedFirst encoding usages node.name application.1 ∧
    List.Forall₂ (fun signal position => map.lookup (signal + i.2) = some position) node.orderedSignals application.2

theorem customGates_spec {list : ConstraintList}
    (hnames : ∀ node ∈ list.dagEncoding.nodes, node.isCustomGate = true → ∃ name, popParenthesis node.name = some name)
    (hleaves : list.dagEncoding.GatesAreLeaves)
    (hsignals : ∀ i ∈ list.dagEncoding.graph.instances list.dagEncoding.init 0,
      HasPositions list.dagEncoding list.signalMap i) :
    ∃ usages applications, list.customGates = some (usages, applications) ∧
      List.Forall₂ (AppliesInstance list.dagEncoding list.signalMap usages)
        ((list.dagEncoding.graph.instances list.dagEncoding.init 0).filter list.dagEncoding.isGate) applications := by
  obtain ⟨usages, occurringOrder, husages, hindex⟩ := usageData_spec hnames
  obtain ⟨iterator, data, hnew, hiterate, hdata⟩ := iterate_spec hleaves hsignals
  have hindexes : ∀ e ∈ data, ∃ application : ℕ × List ℕ,
      ((occurringOrder.findIdx? (· == e.1)).bind fun index => some (index, e.2)) = some application ∧
        UsedFirst list.dagEncoding usages e.1 application.1 ∧ application.2 = e.2 := by
    intro e he
    obtain ⟨i, -, node, hnode, hgate, hname, -⟩ := exists_of_forall₂_right hdata he
    obtain ⟨index, hfound, hused⟩ := hindex node (List.mem_of_getElem? hnode) hgate
    rw [hname]
    exact ⟨(index, e.2), by rw [hfound, Option.bind_some], hused, rfl⟩
  obtain ⟨applications, happlications, hforall⟩ := exists_mapM hindexes
  refine ⟨usages, applications, ?_, ?_⟩
  · refine Option.bind_eq_some_iff.mpr ⟨(usages, occurringOrder), husages, ?_⟩
    refine Option.bind_eq_some_iff.mpr ⟨iterator, hnew, ?_⟩
    refine Option.bind_eq_some_iff.mpr ⟨data, hiterate, ?_⟩
    exact Option.bind_eq_some_iff.mpr ⟨applications, happlications, rfl⟩
  · refine forall₂_comp hdata.flip hforall fun e i application _ => ?_
    rintro ⟨node, hnode, hgate, hname, hpositions⟩ ⟨hused, hsignals⟩
    rw [hname] at hused
    rw [← hsignals] at hpositions
    exact ⟨node, hnode, hgate, hused, hpositions⟩

end Circom.ConstraintList
