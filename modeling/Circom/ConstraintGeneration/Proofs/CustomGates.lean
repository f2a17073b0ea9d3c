import Circom.ConstraintGeneration.Proofs.PublicLayout
import Circom.ConstraintList.Proofs.CustomGates
import Circom.Lib.Separators

/-!
# Custom gates of executed programs

The applications of custom gates that an executed program exports are the instances of its custom templates in the
order of the unfolded tree, and each leads to a usage of its template with the same parameters.
-/

namespace Circom.Dag

open Circom.ConstraintList (DAGEncoding EncodingNode emptyEncodingConstraints)
open Circom.Lib (LayeredGraph foldlM_append_eq forall₂_of_mapM getElem?_of_forall₂)

variable {c : Char} {dag dag' : DAG} {encoding : DAGEncoding} {main node : Node}

namespace DAG

/-! ## Instances of custom gates -/

/-- The instance belongs to a custom gate. -/
def isGate (dag : DAG) (i : ℕ × ℕ) : Bool := ((dag.nodes[i.1]?).map (·.isCustomGate)).getD false

theorem flatMap_ite_singleton {α : Type} (p : α → Bool) (l : List α) :
    l.flatMap (fun a => if p a then [a] else []) = l.filter p := by
  induction l with
  | nil => rfl
  | cons a l ih =>
    rw [List.flatMap_cons, ih, List.filter_cons]
    split_ifs
    · rfl
    · rfl

theorem customGates_eq (hmain : dag.getMain = some main) (hin : main.entry.inNumber = 0) :
    dag.customGates = some ((dag.graph.instances (dag.nodes.length - 1) 0).filter dag.isGate) := by
  obtain ⟨main', edges, hmain', hnode, -, hedges⟩ := exists_main (ne_nil_of_getMain hmain)
  obtain rfl : main' = main := Option.some.inj (hmain'.symm.trans hmain)
  have hpush : ∀ (gates : List (ℕ × ℕ)) (tree : Tree) (node : Node), tree.dag = dag →
      dag.nodes[tree.nodeId]? = some node → Tree.pushGate gates tree =
        some (gates ++ if dag.isGate (tree.nodeId, tree.offset) then [(tree.nodeId, tree.offset)] else []) := by
    intro gates tree node htree hn
    rw [Tree.pushGate, htree, isGate, hn]
    rfl
  rw [customGates, Tree.new_eq hmain]
  refine (walk_rootTree hmain (fun gates i => some (gates ++ if dag.isGate i then [i] else []))
    (fun gates node n offset hn => hpush gates (Tree.ofNode dag node n offset) node rfl hn) []).trans ?_
  rw [hpush [] (dag.rootTree main') main' rfl hnode, Option.bind_some, foldlM_append_eq, ← flatMap_ite_singleton,
    LayeredGraph.instances_eq, List.flatMap_cons, hin]
  show some (([] ++ if dag.isGate (dag.nodes.length - 1, main'.entry.inNumber) then
    [(dag.nodes.length - 1, main'.entry.inNumber)] else []) ++ _) = _
  rw [hin]
  rfl

/-! ## Encoded nodes -/

/-- What the sections of the custom gates read of an encoded node. -/
structure EncodesNode (node : Node) (encoded : EncodingNode) : Prop where
  name_eq : encoded.name = node.templateName
  parameters_eq : encoded.parameters = node.parameters
  isCustomGate_eq : encoded.isCustomGate = node.isCustomGate
  orderedSignals : List.Forall₂ (fun name signal => node.correspondence.lookup name = some signal) node.orderedSignals
    encoded.orderedSignals

theorem Encodes.length_eq (h : dag.Encodes encoding) :
    (emptyEncodingConstraints encoding).nodes.length = dag.nodes.length := by
  show (encoding.nodes.map _).length = _
  rw [List.length_map, ← h.nodes.length_eq, List.length_zipIdx]

theorem Encodes.exists_encoded (h : dag.Encodes encoding) {n : ℕ} (hnode : dag.nodes[n]? = some node) :
    ∃ encoded, (emptyEncodingConstraints encoding).nodes[n]? = some encoded ∧ EncodesNode node encoded := by
  have hindexed : dag.nodes.zipIdx[n]? = some (node, n) := by
    rw [List.getElem?_zipIdx, hnode, Option.map_some, Nat.zero_add]
  obtain ⟨encoded, hencoded, hmap⟩ := getElem?_of_forall₂ h.nodes hindexed
  obtain ⟨orderedSignals, hordered, hmap⟩ := Option.bind_eq_some_iff.mp hmap
  obtain rfl := Option.some.inj hmap
  have hempty : (emptyEncodingConstraints encoding).nodes[n]? = (encoding.nodes[n]?).map _ := List.getElem?_map
  rw [hencoded] at hempty
  exact ⟨_, hempty, rfl, rfl, rfl, forall₂_of_mapM hordered⟩

theorem Encodes.exists_node (h : dag.Encodes encoding) {n : ℕ} {encoded : EncodingNode}
    (hencoded : (emptyEncodingConstraints encoding).nodes[n]? = some encoded) :
    ∃ node, dag.nodes[n]? = some node ∧ EncodesNode node encoded := by
  have hlt := (List.getElem?_eq_some_iff.mp hencoded).1
  rw [h.length_eq] at hlt
  obtain ⟨encoded', hencoded', hencodes⟩ := h.exists_encoded (List.getElem?_eq_getElem hlt)
  obtain rfl := Option.some.inj (hencoded.symm.trans hencoded')
  exact ⟨_, List.getElem?_eq_getElem hlt, hencodes⟩

theorem Encodes.isGate_eq (h : dag.Encodes encoding) : (emptyEncodingConstraints encoding).isGate = dag.isGate := by
  funext i
  rw [DAGEncoding.isGate, isGate]
  cases hnode : dag.nodes[i.1]? with
  | none =>
    have hlength := List.getElem?_eq_none_iff.mp hnode
    rw [List.getElem?_eq_none (by rw [h.length_eq]; exact hlength)]
    rfl
  | some node =>
    obtain ⟨encoded, hencoded, hencodes⟩ := h.exists_encoded hnode
    rw [hencoded]
    exact hencodes.isCustomGate_eq

end DAG

end Circom.Dag

namespace Circom.ConstraintGeneration

open Circom.Dag (DAG Node)
open Circom.Lib (IsNumeral append_inj_of_kind exists_round foldlM_flatMap foldlM_preserves foldlM_some integer
  integer_injective integer_ne_nil isNumeral_of_mem_integer joined joined_injective)

/-! ## The name of an instance -/

/-- The characters between the brackets. -/
def elementsText : List ℤ → List Char
  | [] => []
  | value :: values => integer value ++ joined ',' (values.map integer)

theorem toList_foldl_append (values : List ℤ) (msg : String) :
    (values.foldl (fun msg value => msg ++ "," ++ toString value) msg).toList =
      msg.toList ++ joined ',' (values.map integer) := by
  induction values generalizing msg with
  | nil => exact (List.append_nil _).symm
  | cons value values ih =>
    rw [List.foldl_cons, ih, String.toList_append, String.toList_append, List.append_assoc, List.append_assoc]
    rfl

theorem toList_sliceToString_singleton (value : ℤ) : (sliceToString [value]).toList = integer value := rfl

theorem toList_sliceToString {values : List ℤ} (h : ∀ value, values ≠ [value]) :
    (sliceToString values).toList = '[' :: (elementsText values ++ [']']) := by
  match values with
  | [] => rfl
  | [value] => exact absurd rfl (h value)
  | value :: value' :: values =>
    rw [sliceToString, String.toList_append, toList_foldl_append, String.toList_append]
    show '[' :: (integer value ++ _) ++ [']'] = _
    rw [List.cons_append, List.append_assoc, elementsText, List.append_assoc]
    simp

theorem notMem_integer (h : ¬ IsNumeral c) (z : ℤ) : c ∉ integer z :=
  fun hc => h (isNumeral_of_mem_integer hc)

theorem mem_joined_integer {values : List ℤ} (h : c ∈ joined ',' (values.map integer)) : c = ',' ∨ IsNumeral c := by
  induction values with
  | nil => cases h
  | cons value values ih =>
    rcases List.mem_cons.mp h with rfl | h
    · exact Or.inl rfl
    · rcases List.mem_append.mp h with h | h
      · exact Or.inr (isNumeral_of_mem_integer h)
      · exact ih h

theorem mem_elementsText {values : List ℤ} (h : c ∈ elementsText values) : c = ',' ∨ IsNumeral c := by
  cases values with
  | nil => cases h
  | cons value values =>
    rcases List.mem_append.mp h with h | h
    · exact Or.inr (isNumeral_of_mem_integer h)
    · exact mem_joined_integer h

theorem joined_head_not_numeral (values : List ℤ) : ∀ c ∈ (joined ',' (values.map integer)).head?, ¬ IsNumeral c := by
  intro c hc
  cases values with
  | nil => cases hc
  | cons value values =>
    cases hc
    decide

theorem elementsText_injective {values values' : List ℤ} (h : elementsText values = elementsText values') :
    values = values' := by
  have hcomma (values : List ℤ) : ∀ piece ∈ values.map integer, ',' ∉ piece := by
    intro piece hpiece
    obtain ⟨value, -, rfl⟩ := List.mem_map.mp hpiece
    exact notMem_integer (by decide) value
  cases values with
  | nil =>
    cases values' with
    | nil => rfl
    | cons value' values' => exact absurd (List.append_eq_nil_iff.mp h.symm).1 (integer_ne_nil value')
  | cons value values =>
    cases values' with
    | nil => exact absurd (List.append_eq_nil_iff.mp h).1 (integer_ne_nil value)
    | cons value' values' =>
      obtain ⟨hvalue, hvalues⟩ := append_inj_of_kind (fun _ => isNumeral_of_mem_integer)
        (fun _ => isNumeral_of_mem_integer) (joined_head_not_numeral values) (joined_head_not_numeral values') h
      rw [integer_injective hvalue]
      rw [List.map_injective_iff.mpr (fun _ _ => integer_injective)
        (joined_injective (hcomma values) (hcomma values') hvalues)]

/-- What follows a slice in a name. -/
def Delimited (text : List Char) : Prop := ∀ c ∈ text.head?, c = ',' ∨ c = ')'

theorem Delimited.not_numeral {text : List Char} (h : Delimited text) : ∀ c ∈ text.head?, ¬ IsNumeral c := by
  intro c hc
  rcases h c hc with rfl | rfl
  · decide
  · decide

/-- The first character of a scalar is no bracket. -/
theorem integer_append_ne (value : ℤ) (text text' : List Char) : integer value ++ text ≠ '[' :: text' := by
  intro h
  cases hchars : integer value with
  | nil => exact integer_ne_nil value hchars
  | cons c chars =>
    rw [hchars] at h
    obtain ⟨rfl, -⟩ := List.cons.inj h
    exact notMem_integer (c := '[') (by decide) value (by rw [hchars]; exact List.mem_cons_self)

/-- Where a slice ends in a name is determined. -/
theorem sliceToString_append_inj {values values' : List ℤ} {text text' : List Char} (htext : Delimited text)
    (htext' : Delimited text')
    (h : (sliceToString values).toList ++ text = (sliceToString values').toList ++ text') :
    values = values' ∧ text = text' := by
  by_cases hscalar : ∃ value, values = [value]
  · obtain ⟨value, rfl⟩ := hscalar
    rw [toList_sliceToString_singleton] at h
    by_cases hscalar' : ∃ value', values' = [value']
    · obtain ⟨value', rfl⟩ := hscalar'
      rw [toList_sliceToString_singleton] at h
      obtain ⟨hvalue, hrest⟩ := append_inj_of_kind (fun _ => isNumeral_of_mem_integer)
        (fun _ => isNumeral_of_mem_integer) htext.not_numeral htext'.not_numeral h
      rw [integer_injective hvalue]
      exact ⟨rfl, hrest⟩
    · rw [toList_sliceToString (not_exists.mp hscalar')] at h
      exact absurd h (integer_append_ne value _ _)
  · rw [toList_sliceToString (not_exists.mp hscalar)] at h
    by_cases hscalar' : ∃ value', values' = [value']
    · obtain ⟨value', rfl⟩ := hscalar'
      rw [toList_sliceToString_singleton] at h
      exact absurd h.symm (integer_append_ne value' _ _)
    · rw [toList_sliceToString (not_exists.mp hscalar')] at h
      -- no bracket stands between the brackets
      have hkind (values : List ℤ) : ∀ c ∈ elementsText values, c ≠ ']' := by
        rintro c hc rfl
        exact absurd (mem_elementsText hc) (by decide)
      have hend (text : List Char) : ∀ c ∈ ([']'] ++ text).head?, ¬ c ≠ ']' := by
        rintro c hc
        cases hc
        exact not_not.mpr rfl
      rw [List.cons_append, List.cons_append, List.append_assoc, List.append_assoc] at h
      obtain ⟨hvalues, hrest⟩ := append_inj_of_kind (hkind values) (hkind values') (hend text) (hend text')
        (List.cons.inj h).2
      exact ⟨elementsText_injective hvalues, (List.cons.inj hrest).2⟩

/-- The rest of a name after the first parenthesis. -/
def argumentsText : List (List Char) → List Char
  | [] => [')']
  | [text] => text ++ [')']
  | text :: text' :: texts => text ++ ',' :: argumentsText (text' :: texts)

theorem argumentsText_eq (texts : List String) :
    argumentsText (texts.map String.toList) = (texts.flatMap fun text => text.toList ++ [',']).dropLast ++ [')'] := by
  induction texts with
  | nil => rfl
  | cons text texts ih =>
    cases texts with
    | nil => simp [argumentsText]
    | cons text' texts =>
      have hne : (text' :: texts).flatMap (fun text => text.toList ++ [',']) ≠ [] := by simp
      rw [List.map_cons, List.map_cons, argumentsText, ← List.map_cons, ih, List.flatMap_cons (x := text),
        List.dropLast_append_of_ne_nil hne, List.append_assoc, List.append_assoc]
      rfl

theorem toList_instantiationName (id : String) (parameterValues : List (List ℤ)) (tagValues : List (Option ℤ)) :
    (instantiationName id parameterValues tagValues).toList = id.toList ++ '(' :: argumentsText
      ((parameterValues.map sliceToString ++ tagValues.map tagToString).map String.toList) := by
  have hfold : ∀ (texts : List String) (name : String),
      (texts.foldl (fun name text => name ++ (text ++ ",")) name).toList =
        name.toList ++ texts.flatMap fun text => text.toList ++ [','] := by
    intro texts
    induction texts with
    | nil => exact fun name => (List.append_nil _).symm
    | cons text texts ih =>
      intro name
      rw [List.foldl_cons, ih, String.toList_append, String.toList_append, List.flatMap_cons, List.append_assoc]
      rfl
  unfold instantiationName
  generalize parameterValues.map sliceToString ++ tagValues.map tagToString = texts
  rw [argumentsText_eq]
  cases texts with
  | nil =>
    rw [String.toList_append, if_pos List.isEmpty_nil, hfold, String.toList_append]
    simp
  | cons text texts =>
    have hne : (text :: texts).flatMap (fun text => text.toList ++ [',']) ≠ [] := by simp
    rw [String.toList_append, if_neg (by simp), String.toList_ofList, hfold, List.dropLast_append_of_ne_nil hne,
      String.toList_append, List.append_assoc, List.append_assoc]
    rfl

/-- What follows an argument. -/
def argumentsRest : List (List Char) → List Char
  | [] => [')']
  | text :: texts => ',' :: argumentsText (text :: texts)

theorem argumentsText_cons (text : List Char) (texts : List (List Char)) :
    argumentsText (text :: texts) = text ++ argumentsRest texts := by
  cases texts with
  | nil => rfl
  | cons text' texts => rfl

theorem delimited_argumentsRest (texts : List (List Char)) : Delimited (argumentsRest texts) := by
  intro c hc
  cases texts with
  | nil =>
    cases hc
    exact Or.inr rfl
  | cons text texts =>
    cases hc
    exact Or.inl rfl

theorem argumentsText_injective {values values' : List (List ℤ)} {tags tags' : List (List Char)}
    (hlength : values.length = values'.length)
    (h : argumentsText (values.map (fun v => (sliceToString v).toList) ++ tags) =
      argumentsText (values'.map (fun v => (sliceToString v).toList) ++ tags')) : values = values' := by
  induction values generalizing values' with
  | nil => exact (List.length_eq_zero_iff.mp hlength.symm).symm
  | cons v values ih =>
    cases values' with
    | nil => cases hlength
    | cons v' values' =>
      rw [List.map_cons, List.map_cons, List.cons_append, List.cons_append, argumentsText_cons, argumentsText_cons] at h
      obtain ⟨rfl, hrest⟩ := sliceToString_append_inj (delimited_argumentsRest _) (delimited_argumentsRest _) h
      have hlength' : values.length = values'.length := Nat.succ.inj hlength
      cases values with
      | nil => rw [List.length_eq_zero_iff.mp hlength'.symm]
      | cons w values =>
        cases values' with
        | nil => cases hlength'
        | cons w' values' => rw [ih hlength' (List.cons.inj hrest).2]

theorem notMem_argumentsText (hcomma : c ≠ ',') (hend : c ≠ ')') {texts : List (List Char)}
    (h : ∀ text ∈ texts, c ∉ text) : c ∉ argumentsText texts := by
  induction texts with
  | nil => simpa [argumentsText] using hend
  | cons text texts ih =>
    rw [List.forall_mem_cons] at h
    rw [argumentsText_cons, List.mem_append, not_or]
    refine ⟨h.1, ?_⟩
    cases texts with
    | nil => simpa [argumentsRest] using hend
    | cons text' texts =>
      rw [argumentsRest, List.mem_cons, not_or]
      exact ⟨hcomma, ih h.2⟩

theorem notMem_sliceToString (values : List ℤ) : '(' ∉ (sliceToString values).toList := by
  by_cases hscalar : ∃ value, values = [value]
  · obtain ⟨value, rfl⟩ := hscalar
    rw [toList_sliceToString_singleton]
    exact notMem_integer (by decide) value
  · rw [toList_sliceToString (not_exists.mp hscalar)]
    simp only [List.mem_cons, List.mem_append, List.not_mem_nil, or_false, not_or]
    refine ⟨by decide, fun h => ?_, by decide⟩
    exact absurd (mem_elementsText h) (by decide)

theorem notMem_tagToString (value : Option ℤ) : '(' ∉ (tagToString value).toList := by
  cases value with
  | none => decide
  | some value => exact notMem_integer (by decide) value

/-- The pops leave the name of the template. -/
theorem popParenthesis_instantiationName (id : String) (parameterValues : List (List ℤ))
    (tagValues : List (Option ℤ)) :
    ConstraintList.popParenthesis (instantiationName id parameterValues tagValues) = some id := by
  rw [ConstraintList.popParenthesis_eq (toList_instantiationName id parameterValues tagValues), String.ofList_toList]
  refine notMem_argumentsText (by decide) (by decide) fun text htext => ?_
  rw [List.map_append, List.map_map, List.map_map] at htext
  rcases List.mem_append.mp htext with htext | htext
  · obtain ⟨values, -, rfl⟩ := List.mem_map.mp htext
    exact notMem_sliceToString values
  · obtain ⟨value, -, rfl⟩ := List.mem_map.mp htext
    exact notMem_tagToString value

/-- A name tells the template and, when the number of its parameters is known, their values. -/
theorem instantiationName_inj {id id' : String} {parameterValues parameterValues' : List (List ℤ)}
    {tagValues tagValues' : List (Option ℤ)} (hlength : id = id' → parameterValues.length = parameterValues'.length)
    (h : instantiationName id parameterValues tagValues = instantiationName id' parameterValues' tagValues') :
    id = id' ∧ parameterValues = parameterValues' := by
  have hid : some id = some id' := by
    rw [← popParenthesis_instantiationName id parameterValues tagValues, h, popParenthesis_instantiationName]
  obtain rfl := Option.some.inj hid
  refine ⟨rfl, ?_⟩
  have htexts := congrArg String.toList h
  rw [toList_instantiationName, toList_instantiationName] at htexts
  simp only [List.map_append, List.map_map] at htexts
  exact argumentsText_injective (hlength rfl) (List.cons.inj (List.append_cancel_left htexts)).2

/-! ## The node of a template -/

namespace ExecutedTemplate

variable {t : ExecutedTemplate} {model : ModelBuses}

theorem adjacency_foldlM {α : Type} {f : DAG → α → Option DAG} {l : List α}
    (hf : ∀ dag dag' a, f dag a = some dag' → dag'.adjacency = dag.adjacency) (h : l.foldlM f dag = some dag') :
    dag'.adjacency = dag.adjacency :=
  foldlM_preserves (fun _ d => d.adjacency = dag.adjacency) (fun a _ d d' hd hstep => (hf d d' a hstep).trans hd) rfl h

theorem adjacency_foldlM_generateWire {visit : DAG → String → Option DAG} {wires : List WireData}
    (hvisit : ∀ dag dag' name, visit dag name = some dag' → dag'.adjacency = dag.adjacency)
    (h : wires.foldlM (generateWire visit model.buses t.busConnexions) dag = some dag') :
    dag'.adjacency = dag.adjacency := by
  refine adjacency_foldlM (fun dag dag' w hw => ?_) h
  rw [ModelBuses.generateWire_eq (ModelBuses.connects_of_generateWire hw)] at hw
  exact adjacency_foldlM hvisit hw

theorem adjacency_addSymbol (config : SignalConfig) (dag : DAG) (name : String) :
    (config.addSymbol dag name).adjacency = dag.adjacency := by
  unfold SignalConfig.addSymbol
  split_ifs
  · rfl
  · rfl
  · rfl
  · rfl

theorem adjacency_buildWires (h : t.buildWires model.buses dag = some dag') : dag'.adjacency = dag.adjacency := by
  have hwires : ∀ (config : SignalConfig) {wires : List WireData} {dag dag' : DAG},
      t.buildWiresOf model.buses config wires dag = some dag' → dag'.adjacency = dag.adjacency := by
    intro config wires dag dag' h
    refine adjacency_foldlM_generateWire (fun dag dag' name hvisit => ?_) h
    rw [← Option.some.inj hvisit, adjacency_addSymbol]
  obtain ⟨dag1, hdag1, h⟩ := Option.bind_eq_some_iff.mp h
  obtain ⟨dag2, hdag2, h⟩ := Option.bind_eq_some_iff.mp h
  obtain ⟨dag3, hdag3, h⟩ := Option.bind_eq_some_iff.mp h
  rw [hwires _ h, hwires _ hdag3, hwires _ hdag2, hwires _ hdag1]

theorem adjacency_buildConstraints {t' : ExecutedTemplate} (h : t'.buildConstraints dag = some dag') :
    dag'.adjacency = dag.adjacency := by
  obtain ⟨dag1, hdag1, hdag2⟩ := Option.bind_eq_some_iff.mp h
  refine (adjacency_foldlM (fun dag dag' s hs => ?_) hdag2).trans (adjacency_foldlM (fun dag dag' c hc => ?_) hdag1)
  · obtain ⟨main, -, hs⟩ := Option.bind_eq_some_iff.mp hs
    obtain ⟨newS, -, hs⟩ := Option.bind_eq_some_iff.mp hs
    rw [← Option.some.inj hs]
    rfl
  · obtain ⟨main, -, hc⟩ := Option.bind_eq_some_iff.mp hc
    obtain ⟨cc, -, hc⟩ := Option.bind_eq_some_iff.mp hc
    rw [← Option.some.inj hc]
    rfl

/-- A template without connexions gets no edges. -/
theorem adjacency_insertInDag (hconnexions : t.connexions = []) {t' : ExecutedTemplate}
    (h : t.insertInDag dag model = some (t', dag')) : dag'.adjacency = dag.adjacency ++ [[]] := by
  obtain ⟨built, hbuilt, h⟩ := Option.bind_eq_some_iff.mp h
  obtain ⟨dag2, hordered, h⟩ := Option.bind_eq_some_iff.mp h
  obtain ⟨⟨t1, dag3⟩, hconnected, h⟩ := Option.bind_eq_some_iff.mp h
  obtain ⟨dag4, hconstraints, h⟩ := Option.bind_eq_some_iff.mp h
  obtain ⟨rfl, rfl⟩ := Prod.mk.inj (Option.some.inj h)
  have hedges : dag3.adjacency = dag2.adjacency := by
    obtain ⟨⟨dag5, connexions⟩, hloop, hbuild⟩ := Option.bind_eq_some_iff.mp hconnected
    obtain ⟨main, -, hbuild⟩ := Option.bind_eq_some_iff.mp hbuild
    obtain ⟨-, rfl⟩ := Prod.mk.inj (Option.some.inj hbuild)
    simp only [hconnexions, List.insertionSort_nil, List.foldlM_nil] at hloop
    obtain ⟨rfl, -⟩ := Prod.mk.inj (Option.some.inj hloop)
    rfl
  have hsignals : dag2.adjacency = built.adjacency := by
    refine adjacency_foldlM_generateWire (fun dag dag' name hvisit => ?_) hordered
    rw [← Option.some.inj hvisit]
    rfl
  rw [adjacency_buildConstraints hconstraints, hedges, hsignals, adjacency_buildWires hbuilt]

theorem orderedSignals_foldl (names : List String) (hmain : dag.getMain = some main) :
    ((names.foldl DAG.addOrderedSignal dag).getMain.map Node.orderedSignals) = some (main.orderedSignals ++ names) := by
  induction names generalizing dag main with
  | nil => rw [List.foldl_nil, hmain, Option.map_some, List.append_nil]
  | cons name names ih =>
    have hmain' : (dag.addOrderedSignal name).getMain = some (main.addOrderedSignal name) := by
      rw [DAG.addOrderedSignal, getMain_modifyMain, hmain, Option.map_some]
    rw [List.foldl_cons, ih hmain']
    exact congrArg some (List.append_assoc ..)

theorem orderedSignals_buildOrderedSignals (hmain : dag.getMain = some main)
    (h : t.buildOrderedSignals model.buses dag = some dag') :
    dag'.getMain.map Node.orderedSignals =
      some (main.orderedSignals ++ t.orderedSignals.flatMap (t.scalars model)) := by
  have hconnects : ∀ w ∈ t.orderedSignals, model.Connects t.busConnexions w := by
    intro w hw
    obtain ⟨s, s', hs⟩ := exists_round h hw
    exact ModelBuses.connects_of_generateWire hs
  have hloop : t.buildOrderedSignals model.buses dag =
      some ((t.orderedSignals.flatMap (t.scalars model)).foldl DAG.addOrderedSignal dag) := by
    rw [buildOrderedSignals, ← foldlM_some, foldlM_flatMap]
    exact Lib.foldlM_congr_mem (fun w hw dag => ModelBuses.generateWire_eq (hconnects w hw) _ dag) dag
  rw [← Option.some.inj (hloop.symm.trans h)]
  exact orderedSignals_foldl _ hmain

/-- The node that a template gets. -/
structure HasNode (t : ExecutedTemplate) (model : ModelBuses) (node : Node) : Prop where
  templateName_eq : node.templateName = t.reportName
  parameters_eq : node.parameters = t.parameterInstances.flatMap fun e => asBigInt e.2
  isCustomGate_eq : node.isCustomGate = t.isCustomGate
  orderedSignals_eq : node.orderedSignals = t.orderedSignals.flatMap (t.scalars model)
  locals_eq : node.locals = next 0 (t.wires.flatMap (t.scalars model)).length
  lookup_eq : t.NamesApart model → ∀ (k : ℕ) name, (t.wires.flatMap (t.scalars model))[k]? = some name →
    node.correspondence.lookup name = some (k + 1)

theorem hasNode_insertInDag {t' : ExecutedTemplate} (h : t.insertInDag dag model = some (t', dag')) :
    ∃ main, dag'.getMain = some main ∧ t.HasNode model main := by
  obtain ⟨main, hmain, hcounts⟩ := exists_main_insertInDag h
  have hids := fun hapart k name hk => @hasId_insertInDag t model t' dag dag' h hapart k name hk
  obtain ⟨built, hbuilt, h⟩ := Option.bind_eq_some_iff.mp h
  obtain ⟨dag2, hordered, h⟩ := Option.bind_eq_some_iff.mp h
  obtain ⟨⟨t1, dag3⟩, hconnexions, h⟩ := Option.bind_eq_some_iff.mp h
  obtain ⟨dag4, hconstraints, h⟩ := Option.bind_eq_some_iff.mp h
  obtain ⟨rfl, rfl⟩ := Prod.mk.inj (Option.some.inj h)
  obtain ⟨new, hnew⟩ : ∃ new, new = Node.new dag.nodes.length t.reportName
    (t.parameterInstances.flatMap fun e => asBigInt e.2) t.isParallel t.isCustomGate := ⟨_, rfl⟩
  have hnode : (t.withNode dag).getMain = some new := by
    rw [withNode, DAG.getMain, DAG.addNode, hnew]
    exact List.getLast?_concat
  obtain ⟨built', hbuilt', hwired⟩ := buildWires_main (connects_of_buildWires hbuilt) hnode
  obtain rfl : built' = built := Option.some.inj (hbuilt'.symm.trans hbuilt)
  -- what `add_node` sets stays
  have hhead : dag4.getMain.map (fun node => (node.templateName, node.parameters, node.isCustomGate)) =
      some (new.templateName, new.parameters, new.isCustomGate) := by
    rw [mainImage_buildConstraints (fun _ _ => rfl) (fun _ _ => rfl) hconstraints,
      mainImage_buildConnexions (addSubcomponent_image fun _ _ _ _ _ _ _ => rfl) (fun _ _ => rfl) hconnexions,
      mainImage_buildOrderedSignals (fun _ _ => rfl) hordered, hwired, Option.map_some]
    exact congrArg some (@wiredNode_image t model _ (fun node => (node.templateName, node.parameters, node.isCustomGate))
      (fun _ _ _ => rfl) (fun _ _ => rfl) (fun _ _ => rfl) new)
  have hsignals : dag4.getMain.map Node.orderedSignals = some (t.orderedSignals.flatMap (t.scalars model)) := by
    rw [mainImage_buildConstraints (fun _ _ => rfl) (fun _ _ => rfl) hconstraints,
      mainImage_buildConnexions (addSubcomponent_image fun _ _ _ _ _ _ _ => rfl) (fun _ _ => rfl) hconnexions,
      orderedSignals_buildOrderedSignals hwired hordered,
      @wiredNode_image t model _ Node.orderedSignals (fun _ _ _ => rfl) (fun _ _ => rfl) (fun _ _ => rfl), hnew]
    rfl
  rw [hmain, Option.map_some, hnew] at hhead
  rw [hmain, Option.map_some] at hsignals
  have hhead := Option.some.inj hhead
  refine ⟨main, hmain, congrArg Prod.fst hhead, congrArg (fun e => e.2.1) hhead, congrArg (fun e => e.2.2) hhead,
    Option.some.inj hsignals, congrArg PublicCounts.locals hcounts, fun hapart k name hk => ?_⟩
  obtain ⟨main', hmain', hname⟩ := hids hapart k name hk
  obtain rfl := Option.some.inj (hmain'.symm.trans hmain)
  exact hname

/-- Before the node and the edges of the template stand those that were there. -/
theorem eq_concat_of_changes {α : Type} {l l' : List α} {a : α} (hlength : l'.length = l.length + 1)
    (hget : ∀ n < l.length, l'[n]? = l[n]?) (hlast : l'[l.length]? = some a) : l' = l ++ [a] := by
  refine List.ext_getElem? fun n => ?_
  rcases Nat.lt_trichotomy n l.length with hn | rfl | hn
  · rw [hget n hn, List.getElem?_append_left hn]
  · rw [hlast, List.getElem?_concat_length]
  · rw [List.getElem?_eq_none (by omega), List.getElem?_eq_none (by rw [List.length_append, List.length_singleton]; omega)]

/-- The node of the template is the last one. -/
theorem nodes_insertInDag {t' : ExecutedTemplate} (h : t.insertInDag dag model = some (t', dag')) :
    ∃ main, t.HasNode model main ∧ dag'.nodes = dag.nodes ++ [main] := by
  obtain ⟨main, hmain, hnode⟩ := hasNode_insertInDag h
  have hchanges := changesMain_insertInDag h
  have hlength : dag'.nodes.length = dag.nodes.length + 1 := by
    rw [hchanges.length_eq]
    exact List.length_append ..
  refine ⟨main, hnode, eq_concat_of_changes hlength (fun n hn => ?_) ?_⟩
  · rw [hchanges.nodes_eq n (by rw [← hchanges.length_eq]; omega), withNode, DAG.addNode, List.getElem?_append_left hn]
  · rw [DAG.getMain, List.getLast?_eq_getElem?, hlength, Nat.add_sub_cancel] at hmain
    exact hmain

theorem exists_edges_insertInDag {t' : ExecutedTemplate} (h : t.insertInDag dag model = some (t', dag')) :
    ∃ edges, dag'.adjacency = dag.adjacency ++ [edges] ∧ (t.connexions = [] → edges = []) := by
  by_cases hconnexions : t.connexions = []
  · exact ⟨[], adjacency_insertInDag hconnexions h, fun _ => rfl⟩
  · have hchanges := changesMain_insertInDag h
    have hlength : dag'.adjacency.length = dag.adjacency.length + 1 := by
      rw [dag'.adjacency_length, hchanges.length_eq, dag.adjacency_length]
      exact List.length_append ..
    obtain ⟨edges, hedges⟩ : ∃ edges, dag'.adjacency[dag.adjacency.length]? = some edges :=
      ⟨_, List.getElem?_eq_getElem (by omega)⟩
    refine ⟨edges, eq_concat_of_changes hlength (fun n hn => ?_) hedges, fun hnil => absurd hnil hconnexions⟩
    have hnodes : n + 1 < (t.withNode dag).nodes.length := by
      rw [← hchanges.length_eq, ← dag'.adjacency_length]
      omega
    rw [hchanges.adjacency_eq n hnodes, withNode, DAG.addNode, List.getElem?_append_left hn]

end ExecutedTemplate

namespace ExecutedProgram

variable {program : ExecutedProgram}

/-- The nodes and edges of the graph are those of the templates, in their order. -/
theorem nodes_insertAllInDag (h : program.insertAllInDag = some dag) :
    List.Forall₂ (fun t (e : Node × List Dag.Edge) => t.HasNode program.modelBuses e.1 ∧ (t.connexions = [] → e.2 = []))
      program.model (dag.nodes.zip dag.adjacency) := by
  have hinv := foldlM_preserves
    (fun rest (dag : DAG) => ∃ done, done ++ rest = program.model ∧ List.Forall₂
      (fun t (e : Node × List Dag.Edge) => t.HasNode program.modelBuses e.1 ∧ (t.connexions = [] → e.2 = []))
        done (dag.nodes.zip dag.adjacency))
    (by
      rintro t rest dag dag' ⟨done, hdone, hnodes⟩ hstep
      obtain ⟨⟨t', dag1⟩, hinsert, rfl⟩ := Option.map_eq_some_iff.mp hstep
      obtain ⟨main, hmain, hnodes'⟩ := ExecutedTemplate.nodes_insertInDag hinsert
      obtain ⟨edges, hadjacency, hleaf⟩ := ExecutedTemplate.exists_edges_insertInDag hinsert
      refine ⟨done ++ [t], by rw [List.append_assoc]; exact hdone, ?_⟩
      rw [hnodes', hadjacency, List.zip_append dag.adjacency_length.symm]
      exact List.rel_append hnodes (.cons ⟨hmain, hleaf⟩ .nil))
    (l := program.model) (s := DAG.new program.prime) ⟨[], rfl, .nil⟩ h
  obtain ⟨done, hdone, hnodes⟩ := hinv
  rw [List.append_nil] at hdone
  rwa [hdone] at hnodes

/-- The template of a node of the exported graph. -/
theorem exists_template (h : program.exportDag = some dag) {n : ℕ} (hnode : dag.nodes[n]? = some node) :
    ∃ t, program.model[n]? = some t ∧ t.HasNode program.modelBuses node ∧
      (t.connexions = [] → dag.adjacency[n]? = some []) := by
  obtain ⟨dag', hdag', rfl⟩ := Option.map_eq_some_iff.mp h
  rw [DAG.getElem?_cleanConstraints] at hnode
  obtain ⟨node', hnode', rfl⟩ := Option.map_eq_some_iff.mp hnode
  obtain ⟨-, edges, -, hedges⟩ := dag'.exists_node (List.getElem?_eq_some_iff.mp hnode').1
  have hzip : (dag'.nodes.zip dag'.adjacency)[n]? = some (node', edges) :=
    List.getElem?_zip_eq_some.mpr ⟨hnode', hedges⟩
  obtain ⟨t, ht, hhas, hleaf⟩ := Lib.getElem?_of_forall₂ (nodes_insertAllInDag hdag').flip hzip
  refine ⟨t, ht, ?_, fun hconnexions => ?_⟩
  · exact ⟨hhas.templateName_eq, hhas.parameters_eq, hhas.isCustomGate_eq, hhas.orderedSignals_eq, hhas.locals_eq,
      hhas.lookup_eq⟩
  · show dag'.adjacency[n]? = _
    exact hedges.trans (congrArg some (hleaf hconnexions))

end ExecutedProgram

/-! ## The export of custom gates -/

namespace ExecutedTemplate

/-- Every wire is declared in the list of its kind and in that of all wires. -/
def WiresOrdered (t : ExecutedTemplate) : Prop :=
  t.orderedSignals.Perm (t.outputs ++ (t.inputs ++ t.intermediates))

theorem wiresOrdered_addOutput {t : ExecutedTemplate} (h : t.WiresOrdered) (outputName : String) (dimensions : List ℕ)
    (isBus : Bool) : (t.addOutput outputName dimensions isBus).WiresOrdered := by
  show (t.orderedSignals ++ [_]).Perm (t.outputs ++ [_] ++ (t.inputs ++ t.intermediates))
  rw [List.append_assoc]
  refine (List.Perm.append_right _ h).trans ?_
  rw [List.append_assoc]
  exact List.Perm.append_left _ List.perm_append_comm

theorem wiresOrdered_addInput {t : ExecutedTemplate} (h : t.WiresOrdered) (inputName : String) (dimensions : List ℕ)
    (isBus : Bool) : (t.addInput inputName dimensions isBus).WiresOrdered := by
  show (t.orderedSignals ++ [_]).Perm (t.outputs ++ (t.inputs ++ [_] ++ t.intermediates))
  refine (List.Perm.append_right _ h).trans ?_
  rw [List.append_assoc, List.append_assoc, List.append_assoc]
  exact List.Perm.append_left _ (List.Perm.append_left _ List.perm_append_comm)

theorem wiresOrdered_addIntermediate {t : ExecutedTemplate} (h : t.WiresOrdered) (intermediateName : String)
    (dimensions : List ℕ) (isBus : Bool) : (t.addIntermediate intermediateName dimensions isBus).WiresOrdered := by
  show (t.orderedSignals ++ [_]).Perm (t.outputs ++ (t.inputs ++ (t.intermediates ++ [_])))
  refine (List.Perm.append_right _ h).trans ?_
  rw [List.append_assoc, List.append_assoc]

theorem WiresOrdered.perm_scalars {t : ExecutedTemplate} (h : t.WiresOrdered) (model : ModelBuses) :
    (t.orderedSignals.flatMap (t.scalars model)).Perm (t.wires.flatMap (t.scalars model)) := by
  refine List.Perm.flatMap_right _ (h.trans ?_)
  rw [wires, List.append_assoc, List.append_assoc]
  refine List.Perm.append_left _ ?_
  rw [← List.append_assoc (t.inputs.filter t.isPublicInput)]
  exact List.Perm.append_right _ (List.filter_append_perm t.isPublicInput t.inputs).symm

/-- The template was executed for a call of a template whose parameters have the given names. -/
def IsCall (t : ExecutedTemplate) (argsNames : String → List String) (id : String)
    (parameterValues : List (List ℤ)) : Prop :=
  parameterValues.length = (argsNames id).length ∧
    (∃ tagValues, t.reportName = instantiationName id parameterValues tagValues) ∧
    t.parameterInstances = argsToValues (argsNames id) parameterValues

end ExecutedTemplate

/-- The application of a custom gate in an instance with the given offset: its index leads to the usage of its template
and parameters, and it lists the positions of the scalars in the order of their declarations. -/
structure Applies (t : ExecutedTemplate) (model : ModelBuses) (argsNames : String → List String) (witness : List ℕ)
    (usages : ConstraintWriters.CustomGatesUsedData) (offset : ℕ) (application : ℕ × List ℕ) : Prop where
  isCustomGate_eq : t.isCustomGate = true
  usage : ∃ id parameterValues, t.IsCall argsNames id parameterValues ∧
    usages[application.1]? = some (id, t.parameterInstances.flatMap fun e => ExecutedTemplate.asBigInt e.2)
  positions : List.Forall₂ (fun name position => ∃ k, (t.wires.flatMap (t.scalars model))[k]? = some name ∧
    witness[position]? = some (offset + (k + 1))) (t.orderedSignals.flatMap (t.scalars model)) application.2
  nodup : application.2.Nodup

/-- The sections of the custom gates are written, with one application for each instance of a custom gate. -/
def ExportsGates (program : ExecutedProgram) (argsNames : String → List String) (dag : DAG)
    (list : ConstraintList.ConstraintList) (witness : List ℕ) : Prop :=
  ∃ gates usages applications, dag.customGates = some gates ∧ list.customGates = some (usages, applications) ∧
    List.Forall₂ (fun i application => ∃ t, program.model[i.1]? = some t ∧
      Applies t program.modelBuses argsNames witness usages i.2 application) gates applications

/-- Different names have different positions. -/
theorem nodup_of_forall₂ {α β : Type} {R : α → β → Prop} {l : List α} {bs : List β} (h : List.Forall₂ R l bs)
    (hR : ∀ a a' b, R a b → R a' b → a = a') (hl : l.Nodup) : bs.Nodup := by
  induction h with
  | nil => exact List.nodup_nil
  | cons hab hrest ih =>
    rw [List.nodup_cons] at hl ⊢
    refine ⟨fun hmem => ?_, ih hl.2⟩
    obtain ⟨a', ha', hR'⟩ := Lib.exists_of_forall₂_right hrest hmem
    exact hl.1 (hR _ _ _ hab hR' ▸ ha')

section Gates

variable {program : ExecutedProgram} {argsNames : String → List String}
  (hapart : ∀ t ∈ program.model, t.NamesApart program.modelBuses)
  (hordered : ∀ t ∈ program.model, t.isCustomGate = true → t.WiresOrdered)
  (hcalls : ∀ t ∈ program.model, t.isCustomGate = true → ∃ id parameterValues, t.IsCall argsNames id parameterValues)
  {dag : DAG} (hdag : program.exportDag = some dag) {encoding : ConstraintList.DAGEncoding}
  (hencodes : dag.Encodes encoding)

include hdag hencodes

/-- The template of an encoded node. -/
theorem exists_template_of_encoded {n : ℕ} {encoded : ConstraintList.EncodingNode}
    (hencoded : (ConstraintList.emptyEncodingConstraints encoding).nodes[n]? = some encoded) :
    ∃ t node, program.model[n]? = some t ∧ dag.nodes[n]? = some node ∧ t.HasNode program.modelBuses node ∧
      (t.connexions = [] → dag.adjacency[n]? = some []) ∧ DAG.EncodesNode node encoded ∧
      encoded.isCustomGate = t.isCustomGate ∧ encoded.name = t.reportName := by
  obtain ⟨node, hnode, hencodesNode⟩ := hencodes.exists_node hencoded
  obtain ⟨t, ht, hhas, hleaf⟩ := ExecutedProgram.exists_template hdag hnode
  exact ⟨t, node, ht, hnode, hhas, hleaf, hencodesNode, hencodesNode.isCustomGate_eq.trans hhas.isCustomGate_eq,
    hencodesNode.name_eq.trans hhas.templateName_eq⟩

include hapart hordered in
/-- The ordered signals of a gate are the numbers of its scalars. -/
theorem orderedSignals_of_gate {n : ℕ} {t : ExecutedTemplate} {encoded : ConstraintList.EncodingNode}
    (ht : program.model[n]? = some t) (hgate : t.isCustomGate = true) (hhas : t.HasNode program.modelBuses node)
    (hencodesNode : DAG.EncodesNode node encoded) :
    List.Forall₂ (fun name signal => ∃ k, (t.wires.flatMap (t.scalars program.modelBuses))[k]? = some name ∧
      signal = k + 1 ∧ signal ∈ node.locals) (t.orderedSignals.flatMap (t.scalars program.modelBuses))
        encoded.orderedSignals := by
  have hmem := List.mem_of_getElem? ht
  have hperm := (hordered t hmem hgate).perm_scalars program.modelBuses
  have hsignals := hencodesNode.orderedSignals
  rw [hhas.orderedSignals_eq] at hsignals
  have hall : ∀ name ∈ t.orderedSignals.flatMap (t.scalars program.modelBuses), ∀ signal,
      node.correspondence.lookup name = some signal →
        ∃ k, (t.wires.flatMap (t.scalars program.modelBuses))[k]? = some name ∧ signal = k + 1 ∧
          signal ∈ node.locals := by
    intro name hname signal hlookup
    obtain ⟨k, hk⟩ := List.mem_iff_getElem?.mp (hperm.mem_iff.mp hname)
    obtain rfl := Option.some.inj (hlookup.symm.trans (hhas.lookup_eq (hapart t hmem) k name hk))
    refine ⟨k, hk, rfl, ?_⟩
    have := (List.getElem?_eq_some_iff.mp hk).1
    rw [hhas.locals_eq, next, Finset.mem_Icc]
    omega
  exact Lib.forall₂_comp (List.forall₂_same.mpr fun _ _ => rfl) hsignals fun name name' signal hname heq hlookup => by
    subst heq
    exact hall name hname signal hlookup

include hcalls in
/-- A usage that was found by the name of a gate is one of its template with its parameters. -/
theorem usage_of_gate {n index : ℕ} {t : ExecutedTemplate} (ht : program.model[n]? = some t)
    (hgate : t.isCustomGate = true) {usages : ConstraintWriters.CustomGatesUsedData}
    (hused : ConstraintList.UsedFirst (ConstraintList.emptyEncodingConstraints encoding) usages t.reportName index) :
    ∃ id parameterValues, t.IsCall argsNames id parameterValues ∧
      usages[index]? = some (id, t.parameterInstances.flatMap fun e => ExecutedTemplate.asBigInt e.2) := by
  obtain ⟨encoded, hencoded, hgate', hname, templateName, hpop, husage⟩ := hused.exists_node
  obtain ⟨m, hm⟩ := List.mem_iff_getElem?.mp hencoded
  obtain ⟨t', node, ht', hnode, hhas, -, hencodesNode, hgateEq, hnameEq⟩ :=
    exists_template_of_encoded hdag hencodes hm
  obtain ⟨id, values, hcall⟩ := hcalls t (List.mem_of_getElem? ht) hgate
  obtain ⟨id', values', hcall'⟩ := hcalls t' (List.mem_of_getElem? ht') (hgateEq.symm.trans hgate')
  obtain ⟨hlength, ⟨tags, hreport⟩, hinstances⟩ := hcall
  obtain ⟨hlength', ⟨tags', hreport'⟩, hinstances'⟩ := hcall'
  have hsame : instantiationName id values tags = instantiationName id' values' tags' := by
    rw [← hreport, ← hreport', ← hname, hnameEq]
  obtain ⟨rfl, rfl⟩ := instantiationName_inj (fun heq => by rw [hlength, hlength', heq]) hsame
  refine ⟨id, values, ⟨hlength, ⟨tags, hreport⟩, hinstances⟩, ?_⟩
  rw [hreport, popParenthesis_instantiationName] at hpop
  rw [husage, hencodesNode.parameters_eq, hhas.parameters_eq, hinstances, hinstances', Option.some.inj hpop]

end Gates

/-- The main node of a graph that is mapped counts its public signals. -/
theorem exists_main_insertAllInDag {program : ExecutedProgram} (hdag : program.insertAllInDag = some dag)
    (hnum : dag.AllNumbered) {flags : Dag.SimplificationFlags} {smp : ConstraintList.Simplifier}
    (hmap : Dag.map dag.cleanConstraints flags = some smp) :
    ∃ main, dag.getMain = some main ∧ Dag.CountsPublic main := by
  obtain ⟨root, hroot, -⟩ := DAG.map_spec hmap
  have hlast := List.getLast?_eq_getElem?.symm.trans hroot
  obtain ⟨t, ht, -⟩ := ExecutedProgram.exists_template (Option.map_eq_some_iff.mpr ⟨dag, hdag, rfl⟩) hlast
  obtain ⟨last, hlast⟩ := Option.isSome_iff_exists.mp
    (List.getLast?_isSome.mpr (List.ne_nil_of_mem (List.mem_of_getElem? ht)))
  obtain ⟨dag0, t', hinsert⟩ := ExecutedProgram.insertInDag_of_getLast hlast hdag
  obtain ⟨main, hmain, hcounts⟩ := ExecutedTemplate.exists_main_insertInDag hinsert
  exact ⟨main, hmain, ExecutedTemplate.countsPublic_of_counts hnum hmain hcounts⟩

/-- When the names of no template clash, the sections of the custom gates are exact. -/
theorem ExecutedProgram.exportsGates {p : ℕ} [Fact p.Prime] {program : ExecutedProgram} (hprime : program.prime = p)
    (hcoeffs : ∀ t ∈ program.model, ∀ c ∈ t.constraints, c.CoeffsInField p)
    (hapart : ∀ t ∈ program.model, t.NamesApart program.modelBuses)
    (hordered : ∀ t ∈ program.model, t.isCustomGate = true → t.WiresOrdered) (argsNames : String → List String)
    (hcalls : ∀ t ∈ program.model, t.isCustomGate = true → ∃ id parameterValues, t.IsCall argsNames id parameterValues)
    (hleaves : ∀ t ∈ program.model, t.isCustomGate = true → t.connexions = []) {dag : DAG}
    (hdag : program.exportDag = some dag) {flags : Dag.SimplificationFlags} {smp : ConstraintList.Simplifier}
    (hmap : Dag.map dag flags = some smp) (o : Lib.HashOrder) :
    ∃ list witness, smp.simplifyConstraints o = some list ∧ list.getWitnessAsVec o = some witness ∧
      ExportsGates program argsNames dag list witness := by
  obtain ⟨dag', hdag', hclean⟩ := Option.map_eq_some_iff.mp hdag
  subst hclean
  obtain ⟨hsound, hnamed⟩ := program.sound_insertAllInDag hprime hcoeffs hapart hdag'
  obtain ⟨main, hmain, hcounts⟩ := exists_main_insertAllInDag hdag' hsound.numbered hmap
  have hwf := DAG.wellFormed_of_map hsound.prime_eq hsound.numbered hnamed hsound.within hmain hcounts hmap
  obtain ⟨list, witness, hlist, hwitness, -, -, -, hnumbers, -, hencoding, hforbidden⟩ := getWitnessAsVec_layout o hwf
  refine ⟨list, witness, hlist, hwitness, ?_⟩
  obtain ⟨root, hroot, hencodes, hforbids⟩ := DAG.gates_of_map hmap
  obtain ⟨root', hroot', hmaps⟩ := DAG.map_spec hmap
  obtain rfl : root' = root := Option.some.inj (hroot'.symm.trans hroot)
  have hnum := DAG.allNumbered_cleanConstraints hsound.numbered
  have hnamed' := DAG.allNamed_cleanConstraints hnamed
  obtain ⟨root, edges, hroot'', hnode, -, hedges⟩ := DAG.exists_main (DAG.ne_nil_of_getMain hroot)
  obtain rfl : root = root' := Option.some.inj (hroot''.symm.trans hroot)
  have hin := (hnum _ root edges hnode hedges).entry_in
  rw [hin] at hforbids
  -- the signals of the gates have positions
  have hbound : ∀ i ∈ dag'.cleanConstraints.graph.instances (dag'.cleanConstraints.nodes.length - 1) 0,
      ∀ node, dag'.cleanConstraints.nodes[i.1]? = some node → ∀ k ∈ node.sortedSignals i.2, k < smp.maxSignal := by
    intro i hi node hnode' k hk
    have hbelow : k ∈ dag'.cleanConstraints.signalsBelow (dag'.cleanConstraints.nodes.length - 1) 0 := by
      refine List.mem_flatMap.mpr ⟨i, hi, ?_⟩
      rw [DAG.instanceSignals, hnode']
      exact hk
    have hlt := (List.getElem?_eq_some_iff.mp hnode).1
    have hle := ((DAG.signalsBelow_spec hnum hnamed' _ 0 hlt).1 k).mp hbelow
    rw [DAG.size_eq hnode] at hle
    rw [hmaps.maxSignal_eq, DAG.length_mappedSignals hnum hnamed' hroot]
    omega
  have hgraph : list.dagEncoding.graph.instances list.dagEncoding.init 0 =
      dag'.cleanConstraints.graph.instances (dag'.cleanConstraints.nodes.length - 1) 0 := by
    rw [hencoding]
    show smp.dagEncoding.graph.instances smp.dagEncoding.init 0 = _
    rw [hmaps.graph_eq, hmaps.init_eq]
  have htemplate := fun n encoded => @exists_template_of_encoded program _ hdag _ hencodes n encoded
  rw [← hencoding] at htemplate
  obtain ⟨usages, applications, hgates, hforall⟩ := @ConstraintList.customGates_spec list
    (by
      intro encoded hmem hgate
      obtain ⟨n, hn⟩ := List.mem_iff_getElem?.mp hmem
      obtain ⟨t, node, ht, -, -, -, -, hgateEq, hnameEq⟩ := htemplate n encoded hn
      obtain ⟨id, values, -, ⟨tags, hreport⟩, -⟩ :=
        hcalls t (List.mem_of_getElem? ht) (hgateEq.symm.trans hgate)
      exact ⟨id, by rw [hnameEq, hreport, popParenthesis_instantiationName]⟩)
    (by
      intro n encoded hn hgate
      obtain ⟨t, node, ht, -, -, hleaf, -, hgateEq, -⟩ := htemplate n encoded hn
      have hadjacency := hleaf (hleaves t (List.mem_of_getElem? ht) (hgateEq.symm.trans hgate))
      rw [hencoding]
      show smp.dagEncoding.adjacency[n]? = _
      rw [hencodes.adjacency_eq, List.getElem?_map, hadjacency]
      rfl)
    (by
      intro i hi encoded hn hgate signal hsignal
      rw [hgraph] at hi
      obtain ⟨t, node, ht, hnode', hhas, -, hencodesNode, hgateEq, -⟩ := htemplate i.1 encoded hn
      obtain ⟨name, -, k, -, -, hlocal⟩ := Lib.exists_of_forall₂_right
        (orderedSignals_of_gate hapart hordered hdag hencodes ht (hgateEq.symm.trans hgate) hhas hencodesNode) hsignal
      have hsorted : signal + i.2 ∈ node.sortedSignals i.2 :=
        (DAG.mem_sortedSignals (hnamed' i.1 node hnode')).mpr ⟨signal, hlocal, rfl⟩
      exact hforbidden _ (hforbids i hi node hnode' (hencodesNode.isCustomGate_eq.symm.trans hgate) _ hsorted)
        (hbound i hi node hnode' _ hsorted))
  refine ⟨_, usages, applications, DAG.customGates_eq hroot hin, hgates, ?_⟩
  rw [hgraph, hencoding, hencodes.isGate_eq] at hforall
  refine hforall.imp fun i application => ?_
  rintro ⟨encoded, hn, hgate, hused, hpositions⟩
  rw [← hencoding] at hn
  obtain ⟨t, node, ht, hnode', hhas, -, hencodesNode, hgateEq, hnameEq⟩ := htemplate i.1 encoded hn
  have hgate' := hgateEq.symm.trans hgate
  rw [hnameEq] at hused
  have hnames : List.Forall₂ (fun name position => ∃ k,
      (t.wires.flatMap (t.scalars program.modelBuses))[k]? = some name ∧ witness[position]? = some (i.2 + (k + 1)))
      (t.orderedSignals.flatMap (t.scalars program.modelBuses)) application.2 := by
    refine Lib.forall₂_comp (orderedSignals_of_gate hapart hordered hdag hencodes ht hgate' hhas hencodesNode).flip
      hpositions fun signal name position _ => ?_
    rintro ⟨k, hk, rfl, -⟩ hlookup
    refine ⟨k, hk, ?_⟩
    rw [Nat.add_comm]
    exact (hnumbers.lookup_iff _ _).mp hlookup
  refine ⟨t, ht, hgate', usage_of_gate hcalls hdag hencodes ht hgate' hused, hnames, ?_⟩
  refine nodup_of_forall₂ hnames ?_ ?_
  · rintro name name' position ⟨k, hk, hposition⟩ ⟨k', hk', hposition'⟩
    have hkk : i.2 + (k + 1) = i.2 + (k' + 1) := Option.some.inj (hposition.symm.trans hposition')
    obtain rfl : k = k' := by omega
    exact Option.some.inj (hk.symm.trans hk')
  · have hmem := List.mem_of_getElem? ht
    exact ((hordered t hmem hgate').perm_scalars _).nodup_iff.mpr (hapart t hmem).nodup

/-- A custom gate with a parameter. -/
def gateTemplate : ExecutedTemplate :=
  { ExecutedTemplate.nestedTemplate with
    reportName := instantiationName "G" [[3]] []
    inputs := [⟨"x", [2], false⟩]
    outputs := [⟨"o", [], false⟩]
    intermediates := []
    orderedSignals := [⟨"x", [2], false⟩, ⟨"o", [], false⟩]
    publicInputs := ∅
    parameterInstances := argsToValues ["n"] [[3]]
    isCustomGate := true
    underscoredSignals := [] }

/-- A main template with two components of the template `leaf`. -/
def mainOf (leaf : ExecutedTemplate) : ExecutedProgram where
  model :=
    [leaf,
      { ExecutedTemplate.nestedTemplate with
        inputs := []
        outputs := []
        intermediates := []
        orderedSignals := []
        publicInputs := ∅
        underscoredSignals := []
        components := [⟨"g", [2], false⟩]
        connexions :=
          [{ fullName := "g[0]", inspect := ⟨"g", false, [0], 0⟩ },
            { fullName := "g[1]", inspect := ⟨"g", false, [1], 0⟩ }] }]
  modelBuses := ExecutedTemplate.nestedBuses
  prime := 5

theorem forall_mem_mainOf {leaf : ExecutedTemplate} {P : ExecutedTemplate → Prop} (hleaf : P leaf)
    (hmain : ∀ t ∈ (mainOf leaf).model.tail, P t) : ∀ t ∈ (mainOf leaf).model, P t :=
  List.forall_mem_cons.mpr ⟨hleaf, hmain⟩

/-- The parameters of the templates. -/
def gateArgs (id : String) : List String := if id = "G" then ["n"] else []

theorem exportsGates_parameter :
    ∃ dag smp list witness, (mainOf gateTemplate).exportDag = some dag ∧ Dag.map dag ⟨2, false, false⟩ = some smp ∧
      smp.simplifyConstraints Lib.HashOrder.listOrder = some list ∧
      list.getWitnessAsVec Lib.HashOrder.listOrder = some witness ∧
      ExportsGates (mainOf gateTemplate) gateArgs dag list witness := by
  have hdag : (mainOf gateTemplate).exportDag.isSome := rfl
  have hmap : (Dag.map ((mainOf gateTemplate).exportDag.get hdag) ⟨2, false, false⟩).isSome := rfl
  have hnodup : (gateTemplate.wires.flatMap (gateTemplate.scalars ExecutedTemplate.nestedBuses)).Nodup := by
    decide +kernel
  have : Fact (Nat.Prime 5) := ⟨by norm_num⟩
  obtain ⟨list, witness, hlist, hwitness, hexports⟩ := @ExecutedProgram.exportsGates 5 _ (mainOf gateTemplate) rfl
    (by
      refine forall_mem_mainOf nofun ?_
      rintro t ht c hc
      obtain rfl := List.mem_singleton.mp ht
      cases hc)
    (by
      refine forall_mem_mainOf ⟨hnodup, fun _ _ _ hcnn => nomatch hcnn⟩ ?_
      rintro t ht
      obtain rfl := List.mem_singleton.mp ht
      exact ⟨List.nodup_nil, nofun⟩)
    (by
      refine forall_mem_mainOf (fun _ => List.Perm.swap _ _ _) ?_
      rintro t ht hgate
      obtain rfl := List.mem_singleton.mp ht
      cases hgate)
    gateArgs
    (by
      refine forall_mem_mainOf (fun _ => ⟨"G", [[3]], rfl, ⟨[], rfl⟩, rfl⟩) ?_
      rintro t ht hgate
      obtain rfl := List.mem_singleton.mp ht
      cases hgate)
    (by
      refine forall_mem_mainOf (fun _ => rfl) ?_
      rintro t ht hgate
      obtain rfl := List.mem_singleton.mp ht
      cases hgate) _ (Option.some_get hdag).symm _ _ (Option.some_get hmap).symm Lib.HashOrder.listOrder
  exact ⟨_, _, list, witness, (Option.some_get hdag).symm, (Option.some_get hmap).symm, hlist, hwitness, hexports⟩

/-- A custom gate whose output is a bus with two fields of one name. -/
def repeatedGate : ExecutedTemplate :=
  { gateTemplate with
    inputs := []
    outputs := [⟨"b", [], true⟩]
    orderedSignals := [⟨"b", [], true⟩]
    busConnexions := AList.ofPairs [("b", ⟨"b", ⟨"B", 0⟩⟩)] }

def repeatedGates : ExecutedProgram := { mainOf repeatedGate with modelBuses := repeatedField }

/-- The sections are not written. -/
theorem not_exportsGates_repeated :
    ∃ dag smp list witness, repeatedGates.exportDag = some dag ∧ Dag.map dag ⟨2, false, false⟩ = some smp ∧
      smp.simplifyConstraints Lib.HashOrder.listOrder = some list ∧
      list.getWitnessAsVec Lib.HashOrder.listOrder = some witness ∧
      ¬ ExportsGates repeatedGates gateArgs dag list witness := by
  have hrun : (repeatedGates.exportDag.bind fun dag => (Dag.map dag ⟨2, false, false⟩).bind fun smp =>
      (smp.simplifyConstraints Lib.HashOrder.listOrder).bind fun list =>
        (list.getWitnessAsVec Lib.HashOrder.listOrder).map fun _ => list.customGates.isSome) = some false := by
    decide +kernel
  obtain ⟨dag, hdag, hrun⟩ := Option.bind_eq_some_iff.mp hrun
  obtain ⟨smp, hmap, hrun⟩ := Option.bind_eq_some_iff.mp hrun
  obtain ⟨list, hlist, hrun⟩ := Option.bind_eq_some_iff.mp hrun
  obtain ⟨witness, hwitness, hnone⟩ := Option.map_eq_some_iff.mp hrun
  refine ⟨dag, smp, list, witness, hdag, hmap, hlist, hwitness, ?_⟩
  rintro ⟨gates, usages, applications, -, hsome, -⟩
  rw [hsome] at hnone
  cases hnone

end Circom.ConstraintGeneration
