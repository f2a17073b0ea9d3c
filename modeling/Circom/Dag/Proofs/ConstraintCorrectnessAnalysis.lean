import Circom.Algebra.Proofs.Constraint
import Circom.Dag.ConstraintCorrectnessAnalysis
import Circom.Lib.PartialFold

/-!
# Counting the appearances of signals

The counters of a node count what its constraints mention, and the warnings have the names of the signals whose
counters stay at zero.
-/

namespace Circom.Dag.ConstraintCorrectnessAnalysis

open Circom.Lib (HashMap foldlM_flatMap)

variable {analysis : Analysis} {nodes : List Node} {node : Node} {n : ℕ}

/-! ## Counters -/

theorem increment_eq_some {counter counter' : HashMap ℕ ℕ} {signal : ℕ} (h : increment counter signal = some counter') :
    signal ∈ counter ∧
      ∀ id, counter'.lookup id = (counter.lookup id).map (· + if id = signal then 1 else 0) := by
  obtain ⟨prev, hprev, h⟩ := Option.bind_eq_some_iff.mp h
  obtain rfl := Option.some.inj h
  refine ⟨AList.lookup_isSome.mp (by rw [hprev]; rfl), fun id => ?_⟩
  by_cases hid : id = signal
  · rw [hid, AList.lookup_insert, hprev, if_pos rfl]
    rfl
  · rw [AList.lookup_insert_ne hid, AList.lookup_erase_ne hid, if_neg hid]
    exact (Option.map_id' ..).symm

theorem exists_increment {counter : HashMap ℕ ℕ} {signal : ℕ} (h : signal ∈ counter) :
    ∃ counter', increment counter signal = some counter' := by
  obtain ⟨prev, hprev⟩ := AList.mem_iff_exists_lookup.mp h
  exact ⟨_, by rw [increment, hprev]; rfl⟩

/-- Counting needs a counter for every signal, and adds the number of its appearances. -/
theorem foldlM_increment {signals : List ℕ} {counter counter' : HashMap ℕ ℕ}
    (h : signals.foldlM increment counter = some counter') :
    (∀ id ∈ signals, id ∈ counter) ∧
      ∀ id, counter'.lookup id = (counter.lookup id).map (· + signals.count id) := by
  induction signals generalizing counter with
  | nil =>
    obtain rfl := Option.some.inj h
    exact ⟨nofun, fun id => (Option.map_id' ..).symm⟩
  | cons signal signals ih =>
    rw [List.foldlM_cons] at h
    obtain ⟨next, hnext, h⟩ := Option.bind_eq_some_iff.mp h
    obtain ⟨hsignal, hlookup⟩ := increment_eq_some hnext
    obtain ⟨hsignals, hlookups⟩ := ih h
    refine ⟨fun id hid => ?_, fun id => ?_⟩
    · rcases List.mem_cons.mp hid with rfl | hid
      · exact hsignal
      · rw [← AList.lookup_isSome, ← Option.isSome_map (f := (· + if id = signal then 1 else 0)), ← hlookup]
        exact AList.lookup_isSome.mpr (hsignals id hid)
    · rw [hlookups, hlookup, Option.map_map]
      refine congrArg (Option.map · _) (funext fun k => ?_)
      simp only [Function.comp_apply, List.count_cons, beq_iff_eq, eq_comm (a := signal)]
      omega

theorem exists_foldlM_increment {signals : List ℕ} {counter : HashMap ℕ ℕ} (h : ∀ id ∈ signals, id ∈ counter) :
    ∃ counter', signals.foldlM increment counter = some counter' := by
  induction signals generalizing counter with
  | nil => exact ⟨counter, rfl⟩
  | cons signal signals ih =>
    obtain ⟨next, hnext⟩ := exists_increment (h signal List.mem_cons_self)
    have hmem : ∀ id ∈ signals, id ∈ next := by
      intro id hid
      rw [← AList.lookup_isSome, (increment_eq_some hnext).2, Option.isSome_map]
      exact AList.lookup_isSome.mpr (h id (List.mem_cons_of_mem _ hid))
    obtain ⟨counter', hcounter'⟩ := ih hmem
    exact ⟨counter', by rw [List.foldlM_cons, hnext]; exact hcounter'⟩

/-! ## One node -/

/-- The signals whose appearances are counted, with repetitions. -/
def mentions (node : Node) : List ℕ :=
  node.constraints.flatMap (fun c => c.takeClonedSignals.ascending) ++ node.underscoredSignals

/-- The signals with a counter. -/
def Counted (node : Node) (id : ℕ) : Prop :=
  id ∈ node.reachables ∧ ∃ name, node.correspondence.lookup name = some id

/-- A signal has one name. -/
def NamesOnce (node : Node) : Prop :=
  ∀ name name' id, node.correspondence.lookup name = some id → node.correspondence.lookup name' = some id →
    name = name'

/-- A round of the first loop. -/
def insertCounter (node : Node) (acc : HashMap ℕ ℕ × HashMap ℕ String) (e : String × ℕ) :
    HashMap ℕ ℕ × HashMap ℕ String :=
  if e.2 ∈ node.reachables then (acc.1.insert e.2 0, acc.2.insert e.2 e.1) else acc

/-- What the first loop has done after the entries `l`. -/
structure CountersFor (node : Node) (l : List (String × ℕ)) (acc : HashMap ℕ ℕ × HashMap ℕ String) : Prop where
  zero : ∀ id ∈ node.reachables, ∀ name, (name, id) ∈ l → acc.1.lookup id = some 0
  none : ∀ id, ¬ (id ∈ node.reachables ∧ ∃ name, (name, id) ∈ l) → acc.1.lookup id = none
  name : ∀ id ∈ node.reachables, ∀ name, (name, id) ∈ l → ∃ name', acc.2.lookup id = some name' ∧ (name', id) ∈ l

theorem countersFor_insertCounter {l : List (String × ℕ)} {acc : HashMap ℕ ℕ × HashMap ℕ String}
    (h : CountersFor node l acc) (e : String × ℕ) : CountersFor node (l ++ [e]) (insertCounter node acc e) := by
  have hlast {name : String} {id : ℕ} (hne : id ≠ e.2) (hmem : (name, id) ∈ l ++ [e]) : (name, id) ∈ l := by
    rcases List.mem_append.mp hmem with hmem | hmem
    · exact hmem
    · exact absurd (congrArg Prod.snd (List.mem_singleton.mp hmem)) hne
  unfold insertCounter
  by_cases he : e.2 ∈ node.reachables
  · rw [if_pos he]
    refine ⟨fun id hid name hmem => ?_, fun id hnot => ?_, fun id hid name hmem => ?_⟩
    · by_cases heq : id = e.2
      · rw [heq, AList.lookup_insert]
      · rw [AList.lookup_insert_ne heq]
        exact h.zero id hid name (hlast heq hmem)
    · have heq : id ≠ e.2 := by
        rintro rfl
        exact hnot ⟨he, e.1, by simp⟩
      rw [AList.lookup_insert_ne heq]
      exact h.none id fun ⟨hid, name, hmem⟩ => hnot ⟨hid, name, List.mem_append_left _ hmem⟩
    · by_cases heq : id = e.2
      · exact ⟨e.1, by rw [heq, AList.lookup_insert], by simp [heq]⟩
      · obtain ⟨name', hlookup, hmem'⟩ := h.name id hid name (hlast heq hmem)
        exact ⟨name', by rw [AList.lookup_insert_ne heq]; exact hlookup, List.mem_append_left _ hmem'⟩
  · have hne {id : ℕ} (hid : id ∈ node.reachables) : id ≠ e.2 := by
      rintro rfl
      exact he hid
    rw [if_neg he]
    refine ⟨fun id hid name hmem => h.zero id hid name (hlast (hne hid) hmem), fun id hnot => ?_,
      fun id hid name hmem => ?_⟩
    · exact h.none id fun ⟨hid, name, hmem⟩ => hnot ⟨hid, name, List.mem_append_left _ hmem⟩
    · obtain ⟨name', hlookup, hmem'⟩ := h.name id hid name (hlast (hne hid) hmem)
      exact ⟨name', hlookup, List.mem_append_left _ hmem'⟩

/-- The counters start at zero. -/
theorem initialCounter_spec (node : Node) :
    (∀ id, Counted node id → (initialCounter node).1.lookup id = some 0) ∧
    (∀ id, ¬ Counted node id → (initialCounter node).1.lookup id = none) ∧
    ∀ id, Counted node id → ∃ name, (initialCounter node).2.lookup id = some name ∧
      node.correspondence.lookup name = some id := by
  have hfold : ∀ l : List (String × ℕ), CountersFor node l (l.foldl (insertCounter node) (∅, ∅)) := by
    intro l
    induction l using List.reverseRecOn with
    | nil => exact ⟨nofun, fun _ _ => rfl, nofun⟩
    | append_singleton l e ih =>
      rw [List.foldl_append]
      exact countersFor_insertCounter ih e
  have h : CountersFor node node.signalCorrespondence.pairs (initialCounter node) := hfold _
  refine ⟨fun id hid => ?_, fun id hid => ?_, fun id hid => ?_⟩
  · obtain ⟨hreach, name, hname⟩ := hid
    exact h.zero id hreach name (AList.mem_pairs_iff_lookup.mpr hname)
  · refine h.none id fun ⟨hreach, name, hname⟩ => hid ⟨hreach, name, ?_⟩
    exact AList.mem_pairs_iff_lookup.mp hname
  · obtain ⟨hreach, name, hname⟩ := hid
    obtain ⟨name', hlookup, hmem⟩ := h.name id hreach name (AList.mem_pairs_iff_lookup.mpr hname)
    exact ⟨name', hlookup, AList.mem_pairs_iff_lookup.mp hmem⟩

/-- The names are found as long as the signals are different. -/
theorem foldlM_stats (signalType : ℕ → SignalType) (nameOf : ℕ → String) {pairs : List (ℕ × ℕ)}
    (hnodup : (pairs.map Prod.fst).Nodup) {rev : HashMap ℕ String} (hrev : ∀ e ∈ pairs, rev.lookup e.1 = some (nameOf e.1))
    (stats : List (String × SignalType × ℕ)) :
    ∃ rev', pairs.foldlM (fun (acc : List (String × SignalType × ℕ) × HashMap ℕ String) (e : ℕ × ℕ) => do
      let name ← acc.2.lookup e.1
      some (acc.1 ++ [(name, signalType e.1, e.2)], acc.2.erase e.1)) (stats, rev) =
        some (stats ++ pairs.map fun e => (nameOf e.1, signalType e.1, e.2), rev') := by
  induction pairs generalizing rev stats with
  | nil => exact ⟨rev, by simp⟩
  | cons e pairs ih =>
    rw [List.map_cons, List.nodup_cons] at hnodup
    have hrest : ∀ e' ∈ pairs, (rev.erase e.1).lookup e'.1 = some (nameOf e'.1) := by
      intro e' he'
      have hne : e'.1 ≠ e.1 := fun heq => hnodup.1 (heq ▸ List.mem_map.mpr ⟨e', he', rfl⟩)
      rw [AList.lookup_erase_ne hne]
      exact hrev e' (List.mem_cons_of_mem _ he')
    obtain ⟨rev', h⟩ := ih hnodup.2 hrest (stats ++ [(nameOf e.1, signalType e.1, e.2)])
    refine ⟨rev', ?_⟩
    rw [List.foldlM_cons, hrev e List.mem_cons_self]
    refine h.trans ?_
    simp

/-- The signals of the statistics. -/
structure IsStats (node : Node) (stats : List (String × SignalType × ℕ)) : Prop where
  mem_iff : ∀ name, (∃ stat ∈ stats, stat.1 = name ∧ stat.2.2 = 0) ↔
    ∃ id, node.correspondence.lookup name = some id ∧ id ∈ node.reachables ∧ id ∉ mentions node
  nodup : (stats.map Prod.fst).Nodup

theorem visitNode_eq_some (honce : NamesOnce node) (h : visitNode node = some analysis) :
    (∀ id ∈ mentions node, Counted node id) ∧ analysis.templateName = node.templateName ∧
      IsStats node analysis.signalStats := by
  obtain ⟨hzero, hnone, hname⟩ := initialCounter_spec node
  obtain ⟨counter, hcounter, h⟩ := Option.bind_eq_some_iff.mp h
  obtain ⟨counter', hcounter', h⟩ := Option.bind_eq_some_iff.mp h
  have hmentions : (mentions node).foldlM increment (initialCounter node).1 = some counter' := by
    unfold mentions
    rw [List.foldlM_append, foldlM_flatMap]
    exact (congrArg (Option.bind · _) hcounter).trans hcounter'
  obtain ⟨hmem, hlookup⟩ := foldlM_increment hmentions
  have hcounted (id : ℕ) : id ∈ counter' ↔ Counted node id := by
    rw [← AList.lookup_isSome, hlookup, Option.isSome_map]
    by_cases hid : Counted node id
    · simp [hzero id hid, hid]
    · simp [hnone id hid, hid]
  have hcount {id : ℕ} (hid : Counted node id) : counter'.lookup id = some ((mentions node).count id) := by
    rw [hlookup, hzero id hid, Option.map_some, Nat.zero_add]
  -- every signal has its name
  let nameOf (id : ℕ) : String := ((initialCounter node).2.lookup id).getD ""
  have hnameOf {id : ℕ} (hid : Counted node id) : (initialCounter node).2.lookup id = some (nameOf id) ∧
      node.correspondence.lookup (nameOf id) = some id := by
    obtain ⟨name, hrev, hlook⟩ := hname id hid
    have heq : nameOf id = name := by simp [nameOf, hrev]
    rw [heq]
    exact ⟨hrev, hlook⟩
  have hpairs : ∀ e ∈ counter'.pairs, Counted node e.1 := by
    intro e he
    refine (hcounted e.1).mp (AList.mem_iff_exists_lookup.mpr ⟨e.2, AList.mem_pairs_iff_lookup.mp he⟩)
  have hnodup : (counter'.pairs.map Prod.fst).Nodup := by
    rw [AList.pairs_map_fst]
    exact AList.keys_nodup _
  obtain ⟨rev', hstats⟩ := foldlM_stats
    (fun id => if node.isLocalSignal id then .localSignal else .ioSubcomponent) nameOf hnodup
    (fun e he => (hnameOf (hpairs e he)).1) []
  obtain ⟨⟨stats, rev''⟩, hstats', h⟩ := Option.bind_eq_some_iff.mp h
  have heq : stats = counter'.pairs.map fun e => (nameOf e.1, (if node.isLocalSignal e.1 then
      SignalType.localSignal else .ioSubcomponent), e.2) :=
    congrArg Prod.fst (Option.some.inj (hstats'.symm.trans hstats))
  obtain rfl := Option.some.inj h
  have hperm := List.perm_insertionSort (fun a b : String × SignalType × ℕ => a.1 ≤ b.1) stats
  refine ⟨fun id hid => ?_, rfl, fun name => ?_, ?_⟩
  · by_contra hid'
    have hin := AList.lookup_isSome.mpr (hmem id hid)
    rw [hnone id hid'] at hin
    cases hin
  · simp only [hperm.mem_iff]
    simp only [heq, List.mem_map]
    constructor
    · rintro ⟨-, ⟨e, he, rfl⟩, rfl, h0⟩
      have hid := hpairs e he
      refine ⟨e.1, (hnameOf hid).2, hid.1, ?_⟩
      have he2 := AList.mem_pairs_iff_lookup.mp he
      rw [hcount hid, Option.some.injEq] at he2
      exact List.count_eq_zero.mp (he2.trans h0)
    · rintro ⟨id, hlook, hreach, hnot⟩
      have hid : Counted node id := ⟨hreach, name, hlook⟩
      refine ⟨_, ⟨(id, 0), AList.mem_pairs_iff_lookup.mpr ?_, rfl⟩, ?_, rfl⟩
      · rw [hcount hid, List.count_eq_zero.mpr hnot]
      · exact honce _ _ id (hnameOf hid).2 hlook
  · rw [(hperm.map Prod.fst).nodup_iff, heq, List.map_map]
    refine List.Nodup.map_on (fun e he e' he' h => ?_) (List.Nodup.of_map Prod.fst hnodup)
    have hid := (hnameOf (hpairs e he)).2
    have hid' := (hnameOf (hpairs e' he')).2
    have hname' : nameOf e.1 = nameOf e'.1 := h
    have hfst : e.1 = e'.1 := Option.some.inj (hid.symm.trans (hname' ▸ hid'))
    have hl := AList.mem_pairs_iff_lookup.mp he
    have hl' := AList.mem_pairs_iff_lookup.mp he'
    rw [← hfst, hl] at hl'
    exact Prod.ext hfst (Option.some.inj hl')

/-- The analysis needs a counter for everything that the node mentions. -/
theorem exists_visitNode (h : ∀ id ∈ mentions node, Counted node id) : ∃ analysis, visitNode node = some analysis := by
  obtain ⟨hzero, hnone, hname⟩ := initialCounter_spec node
  obtain ⟨counter', hcounter'⟩ := @exists_foldlM_increment _ (initialCounter node).1 fun id hid =>
    AList.lookup_isSome.mp (by rw [hzero id (h id hid)]; rfl)
  obtain ⟨-, hlookup⟩ := foldlM_increment hcounter'
  unfold mentions at hcounter'
  rw [List.foldlM_append, foldlM_flatMap] at hcounter'
  obtain ⟨counter, hcounter, hunderscored⟩ := Option.bind_eq_some_iff.mp hcounter'
  have hpairs : ∀ e ∈ counter'.pairs, (initialCounter node).2.lookup e.1 =
      some (((initialCounter node).2.lookup e.1).getD "") := by
    intro e he
    have hid : Counted node e.1 := by
      by_contra hid
      have hin := AList.mem_pairs_iff_lookup.mp he
      rw [hlookup, hnone e.1 hid] at hin
      cases hin
    obtain ⟨name, hrev, -⟩ := hname e.1 hid
    rw [hrev]
    rfl
  have hnodup : (counter'.pairs.map Prod.fst).Nodup := by
    rw [AList.pairs_map_fst]
    exact AList.keys_nodup _
  obtain ⟨rev', hstats⟩ := foldlM_stats
    (fun id => if node.isLocalSignal id then .localSignal else .ioSubcomponent)
    (fun id => ((initialCounter node).2.lookup id).getD "") hnodup hpairs []
  exact ⟨_, Option.bind_eq_some_iff.mpr ⟨counter, hcounter, Option.bind_eq_some_iff.mpr ⟨counter', hunderscored,
    Option.bind_eq_some_iff.mpr ⟨(_, rev'), hstats, rfl⟩⟩⟩⟩

/-! ## The warnings of a node -/

/-- The examples in a table. -/
def examplesIn (table : HashMap String (SignalType × List String)) : List String :=
  table.pairs.flatMap fun e => e.2.2

theorem examplesIn_insert (table : HashMap String (SignalType × List String)) (name : String)
    (group : SignalType × List String) :
    examplesIn (table.insert name group) = group.2 ++ examplesIn (table.erase name) := List.flatMap_cons

theorem examplesIn_perm {table table' : HashMap String (SignalType × List String)}
    (h : ∀ name, table.lookup name = table'.lookup name) : (examplesIn table).Perm (examplesIn table') :=
  ((AList.entries_perm_of_lookup h).map _).flatMap_right _

/-- The examples of a group and the others. -/
theorem examplesIn_erase {table : HashMap String (SignalType × List String)} {name : String}
    {group : SignalType × List String} (h : table.lookup name = some group) :
    (examplesIn table).Perm (group.2 ++ examplesIn (table.erase name)) := by
  have hperm := examplesIn_perm fun name' => (AList.insert_erase_lookup h name').symm
  have hnot : name ∉ table.erase name := by simp [AList.mem_erase]
  rwa [examplesIn_insert, AList.erase_of_notMem hnot] at hperm

/-- Every unconstrained signal becomes an example once. -/
theorem examplesIn_addUnconstrained (table : HashMap String (SignalType × List String))
    (stat : String × SignalType × ℕ) :
    (examplesIn (addUnconstrained table stat)).Perm
      (examplesIn table ++ if stat.2.2 = 0 then [stat.1] else []) := by
  obtain ⟨name, xtype, appearances⟩ := stat
  unfold addUnconstrained
  by_cases h0 : appearances = 0
  · simp only [h0, if_true]
    cases hlookup : table.lookup (splitSignalNameIndex name) with
    | none =>
      rw [examplesIn_insert, AList.erase_of_notMem (AList.lookup_eq_none.mp hlookup)]
      exact List.perm_append_comm
    | some group =>
      rw [examplesIn_insert]
      refine List.Perm.trans ?_ ((examplesIn_erase hlookup).symm.append_right _)
      rw [List.append_assoc, List.append_assoc]
      exact List.Perm.append_left _ List.perm_append_comm
  · simp only [h0, if_false, List.append_nil]
    exact List.Perm.refl _

/-- The warnings of an analysis have the names of the signals that do not appear. -/
theorem examples_analysisInterpretation (analysis : Analysis) :
    ((analysisInterpretation analysis).flatMap Warning.examples).Perm
      ((analysis.signalStats.filter fun stat => stat.2.2 = 0).map Prod.fst) := by
  have hfold : ∀ (stats : List (String × SignalType × ℕ)) (table : HashMap String (SignalType × List String)),
      (examplesIn (stats.foldl addUnconstrained table)).Perm
        (examplesIn table ++ (stats.filter fun stat => stat.2.2 = 0).map Prod.fst) := by
    intro stats
    induction stats with
    | nil => exact fun table => by simp
    | cons stat stats ih =>
      intro table
      refine (ih _).trans (((examplesIn_addUnconstrained table stat).append_right _).trans ?_)
      by_cases h0 : stat.2.2 = 0
      · simp [h0]
      · simp [h0]
  have hexamples : (analysisInterpretation analysis).flatMap Warning.examples =
      examplesIn (analysis.signalStats.foldl addUnconstrained ∅) := List.flatMap_map ..
  rw [hexamples]
  exact hfold analysis.signalStats ∅

theorem template_analysisInterpretation :
    ∀ w ∈ analysisInterpretation analysis, w.template = analysis.templateName := by
  intro w hw
  obtain ⟨e, -, rfl⟩ := List.mem_map.mp hw
  rfl

/-- What the analysis of a node reports. -/
def warningsOf (node : Node) : List Warning := ((visitNode node).map analysisInterpretation).getD []

theorem template_warningsOf (node : Node) (honce : NamesOnce node) :
    ∀ w ∈ warningsOf node, w.template = node.templateName := by
  intro w hw
  unfold warningsOf at hw
  cases hvisit : visitNode node with
  | none =>
    rw [hvisit] at hw
    cases hw
  | some analysis =>
    rw [hvisit] at hw
    rw [template_analysisInterpretation w hw]
    exact (visitNode_eq_some honce hvisit).2.1

theorem mem_warningsOf (honce : NamesOnce node) (hvisit : visitNode node = some analysis) (name : String) :
    (∃ w ∈ warningsOf node, name ∈ w.examples) ↔
      ∃ id, node.correspondence.lookup name = some id ∧ id ∈ node.reachables ∧ id ∉ mentions node := by
  have hstats := (visitNode_eq_some honce hvisit).2.2
  have hwarnings : warningsOf node = analysisInterpretation analysis := by simp [warningsOf, hvisit]
  rw [← hstats.mem_iff name, hwarnings, ← List.mem_flatMap, (examples_analysisInterpretation analysis).mem_iff]
  simp only [List.mem_map, List.mem_filter, decide_eq_true_eq]
  exact ⟨fun ⟨stat, ⟨hmem, h0⟩, hname⟩ => ⟨stat, hmem, hname, h0⟩,
    fun ⟨stat, hmem, hname, h0⟩ => ⟨stat, ⟨hmem, h0⟩, hname⟩⟩

theorem nodup_warningsOf (honce : NamesOnce node) : ((warningsOf node).flatMap Warning.examples).Nodup := by
  unfold warningsOf
  cases hvisit : visitNode node with
  | none => exact List.nodup_nil
  | some analysis =>
    have hstats := (visitNode_eq_some honce hvisit).2.2
    refine (examples_analysisInterpretation analysis).nodup_iff.mpr ?_
    exact hstats.nodup.sublist (List.filter_sublist.map Prod.fst)

/-! ## All nodes -/

/-- The nodes that are analysed. -/
def firsts : List String → List Node → List Node
  | _, [] => []
  | visited, node :: nodes =>
    if !node.isCustomGate && node.templateName ∉ visited then node :: firsts (node.templateName :: visited) nodes
    else firsts visited nodes

theorem mem_firsts_iff {visited : List String} :
    node ∈ firsts visited nodes ↔
      ∃ n : ℕ, nodes[n]? = some node ∧ node.isCustomGate = false ∧ node.templateName ∉ visited ∧
        ∀ m < n, ∀ node' : Node, nodes[m]? = some node' → node'.isCustomGate = false →
          node'.templateName ≠ node.templateName := by
  induction nodes generalizing visited with
  | nil => simp [firsts]
  | cons head nodes ih =>
    -- a later node is first in the whole list, if the head does not have its name
    have hlater : (∃ n : ℕ, nodes[n]? = some node ∧ node.isCustomGate = false ∧ node.templateName ∉ visited ∧
        (head.isCustomGate = false → head.templateName ≠ node.templateName) ∧
        ∀ m < n, ∀ node' : Node, nodes[m]? = some node' → node'.isCustomGate = false →
          node'.templateName ≠ node.templateName) ↔
      ∃ n : ℕ, (head :: nodes)[n + 1]? = some node ∧ node.isCustomGate = false ∧ node.templateName ∉ visited ∧
        ∀ m < n + 1, ∀ node' : Node, (head :: nodes)[m]? = some node' → node'.isCustomGate = false →
          node'.templateName ≠ node.templateName := by
      refine exists_congr fun n => and_congr Iff.rfl (and_congr Iff.rfl (and_congr Iff.rfl ⟨?_, ?_⟩))
      · rintro ⟨hhead, h⟩ m hm node' hnode'
        cases m with
        | zero =>
          obtain rfl := Option.some.inj hnode'
          exact hhead
        | succ m => exact h m (by omega) node' hnode'
      · intro h
        exact ⟨h 0 (by omega) head rfl, fun m hm => h (m + 1) (by omega)⟩
    unfold firsts
    split_ifs with hhead
    · obtain ⟨hcustom, hvisited⟩ : head.isCustomGate = false ∧ head.templateName ∉ visited := by simpa using hhead
      rw [List.mem_cons, ih]
      constructor
      · rintro (rfl | ⟨n, hn, hc, hv, hfirst⟩)
        · exact ⟨0, rfl, hcustom, hvisited, nofun⟩
        · rw [List.mem_cons, not_or] at hv
          obtain ⟨hne, hv⟩ := hv
          obtain ⟨n, h⟩ := hlater.mp ⟨n, hn, hc, hv, fun _ => Ne.symm hne, hfirst⟩
          exact ⟨n + 1, h⟩
      · rintro ⟨n, hn, hc, hv, hfirst⟩
        cases n with
        | zero => exact Or.inl (Option.some.inj hn).symm
        | succ n =>
          obtain ⟨n, hn, hc, hv, hne, hfirst⟩ := hlater.mpr ⟨n, hn, hc, hv, hfirst⟩
          exact Or.inr ⟨n, hn, hc, List.mem_cons.not.mpr (not_or.mpr ⟨(hne hcustom).symm, hv⟩), hfirst⟩
    · have hskip : node.templateName ∉ visited → head.isCustomGate = false →
          head.templateName ≠ node.templateName := by
        intro hv hcustom heq
        exact hhead (by simpa [hcustom, heq] using hv)
      rw [ih]
      constructor
      · rintro ⟨n, hn, hc, hv, hfirst⟩
        obtain ⟨n, h⟩ := hlater.mp ⟨n, hn, hc, hv, hskip hv, hfirst⟩
        exact ⟨n + 1, h⟩
      · rintro ⟨n, hn, hc, hv, hfirst⟩
        cases n with
        | zero =>
          obtain rfl := Option.some.inj hn
          exact absurd (by simpa [hc] using hv) hhead
        | succ n =>
          obtain ⟨n, hn, hc, hv, -, hfirst⟩ := hlater.mpr ⟨n, hn, hc, hv, hfirst⟩
          exact ⟨n, hn, hc, hv, hfirst⟩

/-- The analysis reports about the first nodes. -/
theorem foldlM_analyseNode {acc acc' : List Warning × List String} (h : nodes.foldlM analyseNode acc = some acc') :
    (∀ node ∈ firsts acc.2 nodes, ∃ analysis, visitNode node = some analysis) ∧
      acc'.1 = acc.1 ++ (firsts acc.2 nodes).flatMap warningsOf := by
  induction nodes generalizing acc with
  | nil =>
    obtain rfl := Option.some.inj h
    exact ⟨nofun, (List.append_nil _).symm⟩
  | cons node nodes ih =>
    rw [List.foldlM_cons] at h
    obtain ⟨next, hnext, h⟩ := Option.bind_eq_some_iff.mp h
    obtain ⟨hvisits, hwarnings⟩ := ih h
    unfold analyseNode at hnext
    unfold firsts
    dsimp only at hnext
    split_ifs at hnext ⊢ with hnode
    · obtain ⟨analysis, hvisit, hnext⟩ := Option.bind_eq_some_iff.mp hnext
      obtain rfl := Option.some.inj hnext
      refine ⟨List.forall_mem_cons.mpr ⟨⟨analysis, hvisit⟩, hvisits⟩, ?_⟩
      have hwarningsOf : warningsOf node = analysisInterpretation analysis := by simp [warningsOf, hvisit]
      rw [hwarnings, List.flatMap_cons, hwarningsOf, List.append_assoc]
    · obtain rfl := Option.some.inj hnext
      exact ⟨hvisits, hwarnings⟩

theorem exists_foldlM_analyseNode {acc : List Warning × List String}
    (h : ∀ node ∈ firsts acc.2 nodes, ∃ analysis, visitNode node = some analysis) :
    ∃ acc', nodes.foldlM analyseNode acc = some acc' := by
  induction nodes generalizing acc with
  | nil => exact ⟨acc, rfl⟩
  | cons node nodes ih =>
    unfold firsts at h
    have hstep : ∃ next, analyseNode acc node = some next ∧
        ∀ node ∈ firsts next.2 nodes, ∃ analysis, visitNode node = some analysis := by
      unfold analyseNode
      dsimp only
      split_ifs at h ⊢ with hnode
      · obtain ⟨⟨analysis, hvisit⟩, hrest⟩ := List.forall_mem_cons.mp h
        exact ⟨_, by rw [hvisit]; rfl, hrest⟩
      · exact ⟨acc, rfl, h⟩
    obtain ⟨next, hnext, hrest⟩ := hstep
    obtain ⟨acc', hacc'⟩ := ih hrest
    exact ⟨acc', by rw [List.foldlM_cons, hnext]; exact hacc'⟩

theorem nodup_firsts (visited : List String) (nodes : List Node) :
    ((firsts visited nodes).map Node.templateName).Nodup := by
  induction nodes generalizing visited with
  | nil => exact List.nodup_nil
  | cons node nodes ih =>
    unfold firsts
    split_ifs with hnode
    · rw [List.map_cons, List.nodup_cons]
      refine ⟨fun hmem => ?_, ih _⟩
      obtain ⟨node', hnode', hname⟩ := List.mem_map.mp hmem
      obtain ⟨-, -, -, hvisited, -⟩ := mem_firsts_iff.mp hnode'
      exact hvisited (hname ▸ List.mem_cons_self)
    · exact ih _

/-- Among the warnings of nodes with different names those with the name of a node are its own. -/
theorem filter_flatMap_warningsOf (hnodup : (nodes.map Node.templateName).Nodup)
    (honce : ∀ node ∈ nodes, NamesOnce node) (hnode : node ∈ nodes) :
    ((nodes.flatMap warningsOf).filter fun w => w.template = node.templateName) = warningsOf node := by
  have hnone : ∀ nodes : List Node, (∀ node ∈ nodes, NamesOnce node) →
      node.templateName ∉ nodes.map Node.templateName →
      ((nodes.flatMap warningsOf).filter fun w => w.template = node.templateName) = [] := by
    intro nodes honce hnot
    refine List.filter_eq_nil_iff.mpr fun w hw => ?_
    obtain ⟨node', hnode', hw⟩ := List.mem_flatMap.mp hw
    rw [decide_eq_true_eq, template_warningsOf node' (honce node' hnode') w hw]
    exact fun heq => hnot (heq ▸ List.mem_map.mpr ⟨node', hnode', rfl⟩)
  induction nodes with
  | nil => cases hnode
  | cons head nodes ih =>
    rw [List.map_cons, List.nodup_cons] at hnodup
    obtain ⟨honceHead, honceNodes⟩ := List.forall_mem_cons.mp honce
    rw [List.flatMap_cons, List.filter_append]
    rcases List.mem_cons.mp hnode with rfl | hmem
    · rw [hnone nodes honceNodes hnodup.1, List.append_nil]
      refine List.filter_eq_self.mpr fun w hw => ?_
      rw [decide_eq_true_eq]
      exact template_warningsOf node honceHead w hw
    · rw [ih hnodup.2 honceNodes hmem]
      have hhead : ((warningsOf head).filter fun w => w.template = node.templateName) = [] := by
        refine List.filter_eq_nil_iff.mpr fun w hw => ?_
        rw [decide_eq_true_eq, template_warningsOf head honceHead w hw]
        exact fun heq => hnodup.1 (heq ▸ List.mem_map.mpr ⟨node, hmem, rfl⟩)
      rw [hhead, List.nil_append]

/-! ## Exact warnings -/

/-- The names and reachable signals of a graph. -/
structure WellNamed (dag : DAG) : Prop where
  once : ∀ (n : ℕ) node, dag.nodes[n]? = some node → NamesOnce node
  reachable_iff : ∀ (n : ℕ) node, dag.nodes[n]? = some node → ∀ name id, node.correspondence.lookup name = some id →
    (id ∈ node.reachables ↔ Usable dag n id)
  mentioned : ∀ (n : ℕ) node, dag.nodes[n]? = some node → ∀ id ∈ mentions node,
    ∃ name, node.correspondence.lookup name = some id
  mentions_iff : ∀ (n : ℕ) node, dag.nodes[n]? = some node → ∀ id, id ∈ mentions node ↔ id ≠ 0 ∧ ¬ Unconstrained node id
  usable_ne_zero : ∀ (n : ℕ) id, Usable dag n id → id ≠ 0

section

variable {dag : DAG} (hdag : WellNamed dag)

include hdag

theorem WellNamed.unconstrained_iff (hnode : dag.nodes[n]? = some node) {id : ℕ}
    (hid : Usable dag n id) : Unconstrained node id ↔ id ∉ mentions node := by
  rw [hdag.mentions_iff n node hnode]
  simp [hdag.usable_ne_zero n id hid]

/-- The unconstrained names of a node, as the analysis sees them. -/
theorem WellNamed.unconstrainedName_iff (hnode : dag.nodes[n]? = some node) (name : String) :
    UnconstrainedName dag n node name ↔
      ∃ id, node.correspondence.lookup name = some id ∧ id ∈ node.reachables ∧ id ∉ mentions node := by
  refine exists_congr fun id => and_congr_right fun hname => ?_
  rw [hdag.reachable_iff n node hnode name id hname]
  exact and_congr_right fun husable => hdag.unconstrained_iff hnode husable

/-- What is reported under the name of a template are the unconstrained names of the first node with the name. -/
theorem WellNamed.reported_iff {warnings : List Warning} (h : analyse dag.nodes = some warnings)
    (hnode : IsTemplate dag n node) (hfirst : IsFirst dag n node) :
    (∀ name, Reported warnings node.templateName name ↔ UnconstrainedName dag n node name) ∧
      ((warnings.filter fun w => w.template = node.templateName).flatMap Warning.examples).Nodup ∧
      ∀ id ∈ mentions node, Counted node id := by
  obtain ⟨⟨warnings', visited⟩, hfold, h⟩ := Option.bind_eq_some_iff.mp h
  obtain rfl : warnings' = warnings := Option.some.inj h
  obtain ⟨hvisits, hwarnings⟩ := foldlM_analyseNode hfold
  have hwarnings : warnings' = (firsts [] dag.nodes).flatMap warningsOf := by simpa using hwarnings
  have hmem : node ∈ firsts [] dag.nodes :=
    mem_firsts_iff.mpr ⟨n, hnode.1, hnode.2, List.not_mem_nil, fun m hm node' hn hc => hfirst m hm node' ⟨hn, hc⟩⟩
  have honce : ∀ node ∈ firsts [] dag.nodes, NamesOnce node := by
    intro node hnode
    obtain ⟨n, hn, -⟩ := mem_firsts_iff.mp hnode
    exact hdag.once n node hn
  obtain ⟨analysis, hvisit⟩ := hvisits node hmem
  have hfilter : (warnings'.filter fun w => w.template = node.templateName) = warningsOf node := by
    rw [hwarnings]
    exact filter_flatMap_warningsOf (nodup_firsts [] dag.nodes) honce hmem
  refine ⟨fun name => ?_, ?_, (visitNode_eq_some (honce node hmem) hvisit).1⟩
  · rw [hdag.unconstrainedName_iff hnode.1, ← mem_warningsOf (honce node hmem) hvisit, ← hfilter]
    simp only [Reported, List.mem_filter, decide_eq_true_eq, and_assoc]
  · rw [hfilter]
    exact nodup_warningsOf (honce node hmem)

/-- Every template has a first node with its name. -/
theorem exists_first (hnode : IsTemplate dag n node) :
    ∃ n' node', IsTemplate dag n' node' ∧ IsFirst dag n' node' ∧ node'.templateName = node.templateName := by
  clear hdag
  induction n using Nat.strong_induction_on generalizing node with
  | h n ih =>
    by_cases hfirst : IsFirst dag n node
    · exact ⟨n, node, hnode, hfirst, rfl⟩
    · unfold IsFirst at hfirst
      push Not at hfirst
      obtain ⟨m, hm, node', hnode', hname⟩ := hfirst
      obtain ⟨n', first, hfirst, hisFirst, hname'⟩ := ih m hm hnode'
      exact ⟨n', first, hfirst, hisFirst, hname'.trans hname⟩

/-- The analysis is exact if and only if the nodes can be told apart by their names as far as it matters. -/
theorem WellNamed.exact_iff :
    (∃ warnings, analyse dag.nodes = some warnings ∧ Exact dag warnings) ↔ Distinguishable dag := by
  constructor
  · rintro ⟨warnings, h, hexact⟩
    have hreported {n : ℕ} {node : Node} (hnode : IsTemplate dag n node) (name : String) :
        Reported warnings node.templateName name ↔ UnconstrainedName dag n node name := by
      constructor
      · intro hname
        obtain ⟨id, hlookup, husable⟩ := hexact.only n node hnode name hname
        exact ⟨id, hlookup, husable, (hexact.reported n node hnode id husable).mp ⟨name, hlookup, hname⟩⟩
      · rintro ⟨id, hlookup, husable, hunconstrained⟩
        obtain ⟨name', hlookup', hname'⟩ := (hexact.reported n node hnode id husable).mpr hunconstrained
        rwa [hdag.once n node hnode.1 name name' id hlookup hlookup']
    refine ⟨fun n node hnode id husable => ?_, fun n node hnode hfirst id hid hconstrained => ?_,
      fun n node n' node' hnode hnode' hname name hunconstrained => ?_⟩
    · by_cases hunconstrained : Unconstrained node id
      · obtain ⟨name, hname, -⟩ := (hexact.reported n node hnode id husable).mpr hunconstrained
        exact ⟨name, hname⟩
      · exact hdag.mentioned n node hnode.1 id
          ((hdag.mentions_iff n node hnode.1 id).mpr ⟨hdag.usable_ne_zero n id husable, hunconstrained⟩)
    · obtain ⟨-, -, hmentions⟩ := hdag.reported_iff h hnode hfirst
      obtain ⟨hreach, name, hname⟩ := hmentions id ((hdag.mentions_iff n node hnode.1 id).mpr ⟨hid, hconstrained⟩)
      exact (hdag.reachable_iff n node hnode.1 name id hname).mp hreach
    · rw [← hreported hnode', ← hname]
      exact (hreported hnode name).mpr hunconstrained
  · intro h
    have hvisits : ∀ node ∈ firsts [] dag.nodes, ∃ analysis, visitNode node = some analysis := by
      intro node hnode
      obtain ⟨n, hn, hcustom, -, hfirst⟩ := mem_firsts_iff.mp hnode
      refine exists_visitNode fun id hid => ?_
      obtain ⟨name, hname⟩ := hdag.mentioned n node hn id hid
      obtain ⟨hne, hconstrained⟩ := (hdag.mentions_iff n node hn id).mp hid
      have husable := h.inScope n node ⟨hn, hcustom⟩ (fun m hm node' hnode' => hfirst m hm node' hnode'.1 hnode'.2)
        id hne hconstrained
      exact ⟨(hdag.reachable_iff n node hn name id hname).mpr husable, name, hname⟩
    obtain ⟨⟨warnings, visited⟩, hfold⟩ := @exists_foldlM_analyseNode _ ([], []) hvisits
    have hanalyse : analyse dag.nodes = some warnings := Option.bind_eq_some_iff.mpr ⟨_, hfold, rfl⟩
    have hreported {n : ℕ} {node : Node} (hnode : IsTemplate dag n node) :
        (∀ name, Reported warnings node.templateName name ↔ UnconstrainedName dag n node name) ∧
          ((warnings.filter fun w => w.template = node.templateName).flatMap Warning.examples).Nodup := by
      obtain ⟨n', first, hfirst, hisFirst, hname⟩ := exists_first hdag hnode
      obtain ⟨hnames, hnodup, -⟩ := hdag.reported_iff hanalyse hfirst hisFirst
      rw [hname] at hnames hnodup
      refine ⟨fun name => (hnames name).trans ⟨?_, ?_⟩, hnodup⟩
      · exact h.alike n' first n node hfirst hnode hname name
      · exact h.alike n node n' first hnode hfirst hname.symm name
    refine ⟨warnings, hanalyse, fun n node hnode id husable => ?_, fun n node hnode name hname => ?_,
      fun n node hnode => (hreported hnode).2⟩
    · constructor
      · rintro ⟨name, hlookup, hname⟩
        obtain ⟨id', hlookup', -, hunconstrained⟩ := ((hreported hnode).1 name).mp hname
        rwa [Option.some.inj (hlookup.symm.trans hlookup')]
      · intro hunconstrained
        obtain ⟨name, hlookup⟩ := h.named n node hnode id husable
        exact ⟨name, hlookup, ((hreported hnode).1 name).mpr ⟨id, hlookup, husable, hunconstrained⟩⟩
    · obtain ⟨id, hlookup, husable, -⟩ := ((hreported hnode).1 name).mp hname
      exact ⟨id, hlookup, husable⟩

end

end Circom.Dag.ConstraintCorrectnessAnalysis
