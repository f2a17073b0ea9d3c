import Circom.ConstraintGeneration.AssignmentUtils

/-!
# Inherited tags

The tags of an array after assignments to its positions are those that all assignments have in common, in
whatever order they are made.
-/

namespace Circom.ConstraintGeneration

open Circom.Lib (HashMap)

/-- The tags of an array before its first assignment: all are defined by the user. -/
structure UserTags where
  tags : TagInfo
  definitions : TagDefinitions
  defined : ∀ tag ∈ tags, ∃ state, definitions.lookup tag = some state ∧ state.defined = true

/-- The assignments to the positions of an array, of which only the first one finds it not initialized. -/
def propagateRest (tags : TagInfo) (definitions : TagDefinitions) :
    List TagInfo → Option (TagInfo × TagDefinitions)
  | [] => some (tags, definitions)
  | assigned :: rest => do
    let (tags, definitions) ← performTagPropagation tags definitions assigned true
    propagateRest tags definitions rest

def propagateAll (tags : TagInfo) (definitions : TagDefinitions) (first : TagInfo) (rest : List TagInfo) :
    Option (TagInfo × TagDefinitions) := do
  let (tags, definitions) ← performTagPropagation tags definitions first false
  propagateRest tags definitions rest

/-! ## One assignment -/

section Step

variable {tags : TagInfo} {definitions : TagDefinitions}

/-- The entry of a tag after the first loop. -/
def keptEntry (definitions : TagDefinitions) (assigned : TagInfo) (isInit : Bool) (tag : String)
    (value : Option ℤ) : Option (Option ℤ) :=
  (definitions.lookup tag).bind fun state => keptValue state value (assigned.lookup tag) isInit

theorem keepTags_lookup (assigned : TagInfo) (isInit : Bool) {pairs : List (String × Option ℤ)} (hnodup : (pairs.map Prod.fst).Nodup)
    (hdefined : ∀ e ∈ pairs, e.1 ∈ definitions) (hnew : ∀ e ∈ pairs, e.1 ∉ tags) :
    ∃ tags', keepTags definitions assigned isInit tags pairs = some tags' ∧ ∀ tag,
      (∀ value, (tag, value) ∈ pairs →
        tags'.lookup tag = keptEntry definitions assigned isInit tag value) ∧
      (tag ∉ pairs.map Prod.fst → tags'.lookup tag = tags.lookup tag) := by
  induction pairs generalizing tags with
  | nil => exact ⟨tags, rfl, fun tag => ⟨(fun value h => by cases h), fun _ => rfl⟩⟩
  | cons e pairs ih =>
    obtain ⟨tag₀, value₀⟩ := e
    rw [List.map_cons, List.nodup_cons] at hnodup
    obtain ⟨state, hstate⟩ := AList.mem_iff_exists_lookup.mp (hdefined (tag₀, value₀) (by simp))
    set next : TagInfo := (keptValue state value₀ (assigned.lookup tag₀) isInit).elim (tags.erase tag₀)
      (tags.insert tag₀) with hnext
    have hself : next.lookup tag₀ = keptEntry definitions assigned isInit tag₀ value₀ := by
      rw [keptEntry, hstate, Option.bind_some, hnext]
      cases hkept : keptValue state value₀ (assigned.lookup tag₀) isInit with
      | some value => exact AList.lookup_insert tags
      | none => exact AList.lookup_erase tag₀ tags
    have hother : ∀ tag, tag ≠ tag₀ → next.lookup tag = tags.lookup tag := by
      intro tag hne
      rw [hnext]
      cases keptValue state value₀ (assigned.lookup tag₀) isInit with
      | some value => exact AList.lookup_insert_ne hne
      | none => exact AList.lookup_erase_ne hne
    have hrestNew : ∀ e ∈ pairs, e.1 ∉ next := by
      intro e he
      have hne : e.1 ≠ tag₀ := by
        rintro rfl
        exact hnodup.1 (List.mem_map.mpr ⟨e, he, rfl⟩)
      rw [← AList.lookup_eq_none, hother e.1 hne, AList.lookup_eq_none]
      exact hnew e (List.mem_cons_of_mem _ he)
    obtain ⟨tags', hkeep, hlookup⟩ :=
      ih hnodup.2 (fun e he => hdefined e (List.mem_cons_of_mem _ he)) hrestNew
    have hrun : keepTags definitions assigned isInit tags ((tag₀, value₀) :: pairs) = some tags' := by
      rw [keepTags, hstate, ← hkeep, hnext]
      cases hkept : keptValue state value₀ (assigned.lookup tag₀) isInit with
      | some value => simp only [Option.bind_eq_bind, Option.bind_some, hkept, Option.elim_some]
      | none => simp only [Option.bind_eq_bind, Option.bind_some, hkept, Option.elim_none]
    refine ⟨tags', hrun, fun tag => ⟨fun value hmem => ?_, fun hnot => ?_⟩⟩
    · rcases List.mem_cons.mp hmem with heq | hmem
      · cases heq
        rw [(hlookup tag₀).2 hnodup.1, hself]
      · exact (hlookup tag).1 value hmem
    · rw [List.map_cons, List.mem_cons, not_or] at hnot
      rw [(hlookup tag).2 hnot.2, hother tag hnot.1]

theorem addTags_lookup {pairs : List (String × Option ℤ)} (hnodup : (pairs.map Prod.fst).Nodup)
    (tags : TagInfo) (definitions : TagDefinitions) (tag : String) :
    (tag ∈ tags ∨ tag ∉ pairs.map Prod.fst →
      (addTags (tags, definitions) pairs).1.lookup tag = tags.lookup tag ∧
      (addTags (tags, definitions) pairs).2.lookup tag = definitions.lookup tag) ∧
    (tag ∉ tags → ∀ value, (tag, value) ∈ pairs →
      (addTags (tags, definitions) pairs).1.lookup tag = some value ∧
      (addTags (tags, definitions) pairs).2.lookup tag = some ⟨false, false⟩) := by
  induction pairs generalizing tags definitions with
  | nil => exact ⟨fun _ => ⟨rfl, rfl⟩, fun _ value h => by cases h⟩
  | cons e pairs ih =>
    obtain ⟨tag₀, value₀⟩ := e
    rw [List.map_cons, List.nodup_cons] at hnodup
    by_cases hmem : tag₀ ∈ tags
    · obtain ⟨hsame, hadd⟩ := ih hnodup.2 tags definitions
      rw [addTags, if_pos hmem]
      refine ⟨fun h => hsame (h.imp_right fun hnot hm => hnot (List.mem_cons_of_mem _ hm)), fun hnot value hv => ?_⟩
      rcases List.mem_cons.mp hv with heq | hv
      · cases heq
        exact absurd hmem hnot
      · exact hadd hnot value hv
    · obtain ⟨hsame, hadd⟩ := ih hnodup.2 (tags.insert tag₀ value₀) (definitions.insert tag₀ ⟨false, false⟩)
      rw [addTags, if_neg hmem]
      constructor
      · intro h
        have hne : tag ≠ tag₀ := by
          rintro rfl
          rcases h with h | h
          · exact hmem h
          · exact h List.mem_cons_self
        have hrest : tag ∈ tags.insert tag₀ value₀ ∨ tag ∉ pairs.map Prod.fst :=
          h.imp (fun hm => (AList.mem_insert _).mpr (Or.inr hm)) fun hnot hm =>
            hnot (List.mem_cons_of_mem _ hm)
        obtain ⟨h1, h2⟩ := hsame hrest
        exact ⟨h1.trans (AList.lookup_insert_ne hne), h2.trans (AList.lookup_insert_ne hne)⟩
      · intro hnot value hv
        rcases List.mem_cons.mp hv with heq | hrest
        · cases heq
          obtain ⟨h1, h2⟩ := hsame (Or.inl ((AList.mem_insert _).mpr (Or.inl rfl)))
          exact ⟨h1.trans (AList.lookup_insert _), h2.trans (AList.lookup_insert _)⟩
        · have hne : tag ≠ tag₀ := by
            rintro rfl
            exact hnodup.1 (List.mem_map.mpr ⟨_, hrest, rfl⟩)
          refine hadd (fun hm => ?_) value hrest
          rcases (AList.mem_insert _).mp hm with heq | hm
          · exact hne heq
          · exact hnot hm

theorem keys_pairs_nodup (tags : TagInfo) : (tags.pairs.map Prod.fst).Nodup := by
  rw [AList.pairs_map_fst]
  exact AList.keys_nodup tags

/-- The first loop over the whole table. -/
theorem keepTags_pairs (assigned : TagInfo) (isInit : Bool) (hdefined : ∀ tag ∈ tags, tag ∈ definitions) :
    ∃ tags', keepTags definitions assigned isInit ∅ tags.pairs = some tags' ∧ ∀ tag, tags'.lookup tag =
      (tags.lookup tag).bind fun value => keptEntry definitions assigned isInit tag value := by
  have hpairs : ∀ e ∈ tags.pairs, e.1 ∈ definitions := fun e he =>
    hdefined e.1 (AList.mem_iff_exists_lookup.mpr ⟨e.2, AList.mem_pairs_iff_lookup.mp he⟩)
  obtain ⟨tags', hkeep, hlookup⟩ := keepTags_lookup assigned isInit (keys_pairs_nodup tags) hpairs
    fun e _ => AList.notMem_empty e.1
  refine ⟨tags', hkeep, fun tag => ?_⟩
  cases htag : tags.lookup tag with
  | some value => exact (hlookup tag).1 value (AList.mem_pairs_iff_lookup.mpr htag)
  | none =>
    have hnot : tag ∉ tags.pairs.map Prod.fst := by
      rw [AList.pairs_map_fst, ← AList.mem_keys]
      exact AList.lookup_eq_none.mp htag
    exact (hlookup tag).2 hnot

/-- What an assignment to an initialized array leaves of each tag. -/
theorem performTagPropagation_again (assigned : TagInfo) (hdefined : ∀ tag ∈ tags, tag ∈ definitions) :
    ∃ tags', performTagPropagation tags definitions assigned true = some (tags', definitions) ∧
      ∀ tag, tags'.lookup tag =
        (tags.lookup tag).bind fun value => keptEntry definitions assigned true tag value := by
  obtain ⟨tags', hkeep, hlookup⟩ := keepTags_pairs assigned true hdefined
  exact ⟨tags', by rw [performTagPropagation, hkeep]; rfl, hlookup⟩

/-- The first assignment adds the tags that the user has not defined. -/
theorem performTagPropagation_first (initial : UserTags) (assigned : TagInfo) :
    ∃ tags' definitions', performTagPropagation initial.tags initial.definitions assigned false =
        some (tags', definitions') ∧
      ∀ tag, (∀ value state, initial.tags.lookup tag = some value →
          initial.definitions.lookup tag = some state →
          tags'.lookup tag =
            some (if state.valueDefined then value else (assigned.lookup tag).getD none) ∧
          definitions'.lookup tag = some state) ∧
        (tag ∉ initial.tags → tags'.lookup tag = assigned.lookup tag ∧
          (tag ∈ assigned → definitions'.lookup tag = some ⟨false, false⟩)) := by
  have hdefined : ∀ tag ∈ initial.tags, tag ∈ initial.definitions := by
    intro tag htag
    obtain ⟨state, hstate, -⟩ := initial.defined tag htag
    exact AList.mem_iff_exists_lookup.mpr ⟨state, hstate⟩
  obtain ⟨kept, hkeep, hlookup⟩ := keepTags_pairs assigned false hdefined
  refine ⟨_, _, by rw [performTagPropagation, hkeep]; rfl, fun tag => ?_⟩
  have hadd := addTags_lookup (keys_pairs_nodup assigned) kept initial.definitions tag
  constructor
  · intro value state htag hstate
    obtain ⟨state', hstate', huser⟩ :=
      initial.defined tag (AList.mem_iff_exists_lookup.mpr ⟨value, htag⟩)
    obtain rfl : state = state' := Option.some.inj (hstate.symm.trans hstate')
    have hentry : kept.lookup tag =
        some (if state.valueDefined then value else (assigned.lookup tag).getD none) := by
      rw [hlookup, htag, Option.bind_some, keptEntry, hstate, Option.bind_some]
      unfold keptValue
      rw [if_pos huser]
      cases state.valueDefined with
      | true => rfl
      | false => cases assigned.lookup tag <;> rfl
    obtain ⟨h1, h2⟩ := hadd.1 (Or.inl (AList.mem_iff_exists_lookup.mpr ⟨_, hentry⟩))
    exact ⟨h1.trans hentry, h2.trans hstate⟩
  · intro htag
    have hentry : kept.lookup tag = none := by
      rw [hlookup, AList.lookup_eq_none.mpr htag]
      rfl
    have hnot : tag ∉ kept := AList.lookup_eq_none.mp hentry
    cases hassigned : assigned.lookup tag with
    | some value =>
      obtain ⟨h1, h2⟩ := hadd.2 hnot value (AList.mem_pairs_iff_lookup.mpr hassigned)
      exact ⟨h1, fun _ => h2⟩
    | none =>
      have hmem : tag ∉ assigned := AList.lookup_eq_none.mp hassigned
      have hpairs : tag ∉ assigned.pairs.map Prod.fst := by
        rw [AList.pairs_map_fst, ← AList.mem_keys]
        exact hmem
      exact ⟨(hadd.1 (Or.inr hpairs)).1.trans hentry, fun h => absurd h hmem⟩

end Step

/-! ## All assignments -/

section Run

variable {tags : TagInfo} {definitions : TagDefinitions} {tag : String}

/-- The entry of one tag through the assignments that follow the first one. -/
def keptAll (definitions : TagDefinitions) (tag : String) (entry : Option (Option ℤ))
    (rest : List TagInfo) : Option (Option ℤ) :=
  rest.foldl (fun entry assigned =>
    entry.bind fun value => keptEntry definitions assigned true tag value) entry

theorem propagateRest_lookup (rest : List TagInfo) (hdefined : ∀ tag ∈ tags, tag ∈ definitions) :
    ∃ tags', propagateRest tags definitions rest = some (tags', definitions) ∧
      ∀ tag, tags'.lookup tag = keptAll definitions tag (tags.lookup tag) rest := by
  induction rest generalizing tags with
  | nil => exact ⟨tags, rfl, fun tag => rfl⟩
  | cons assigned rest ih =>
    obtain ⟨next, hnext, hlookup⟩ := performTagPropagation_again assigned hdefined
    have hdefinedNext : ∀ tag ∈ next, tag ∈ definitions := by
      intro tag htag
      refine hdefined tag ?_
      by_contra hnot
      have hnone : next.lookup tag = none := by
        rw [hlookup, AList.lookup_eq_none.mpr hnot]
        rfl
      exact AList.lookup_eq_none.mp hnone htag
    obtain ⟨tags', hrest, hall⟩ := ih hdefinedNext
    refine ⟨tags', by rw [propagateRest, hnext]; exact hrest, fun tag => ?_⟩
    rw [hall, hlookup]
    rfl

theorem keptAll_none (rest : List TagInfo) : keptAll definitions tag none rest = none := by
  induction rest with
  | nil => rfl
  | cons assigned rest ih => exact ih

/-- A tag that the user has not defined stays while the assigned values agree. -/
theorem keptAll_inherited (hstate : definitions.lookup tag = some ⟨false, false⟩) (value value' : Option ℤ)
    (rest : List TagInfo) : keptAll definitions tag (some value) rest = some value' ↔
      value = value' ∧ ∀ assigned ∈ rest, assigned.lookup tag = some value := by
  induction rest with
  | nil => simp [keptAll]
  | cons assigned rest ih =>
    have hstep : keptAll definitions tag (some value) (assigned :: rest) =
        keptAll definitions tag (if assigned.lookup tag = some value then some value else none) rest := by
      have hentry : keptEntry definitions assigned true tag value =
          if assigned.lookup tag = some value then some value else none := by
        rw [keptEntry, hstate, Option.bind_some]
        unfold keptValue
        rw [if_neg (by decide)]
        cases assigned.lookup tag with
        | none => simp
        | some valueNew => simp [eq_comm]
      rw [keptAll, List.foldl_cons, Option.bind_some, hentry]
      rfl
    rw [hstep]
    by_cases heq : assigned.lookup tag = some value
    · rw [if_pos heq, ih]
      simp [heq]
    · rw [if_neg heq, keptAll_none]
      simp [heq]

/-- A value that the user has given stays. -/
theorem keptAll_fixed {state : TagState} (hstate : definitions.lookup tag = some state)
    (huser : state.defined = true) (hvalue : state.valueDefined = true) (value : Option ℤ)
    (rest : List TagInfo) : keptAll definitions tag (some value) rest = some value := by
  induction rest with
  | nil => rfl
  | cons assigned rest ih =>
    have hentry : keptEntry definitions assigned true tag value = some value := by
      rw [keptEntry, hstate, Option.bind_some]
      unfold keptValue
      rw [if_pos huser, if_pos hvalue]
    rw [keptAll, List.foldl_cons, Option.bind_some, hentry]
    exact ih

/-- A tag that the user has defined without a value loses its value when the assigned values differ. -/
theorem keptAll_defined {state : TagState} (hstate : definitions.lookup tag = some state)
    (huser : state.defined = true) (hvalue : state.valueDefined = false) (value : Option ℤ)
    (rest : List TagInfo) : keptAll definitions tag (some value) rest =
      some (if ∀ assigned ∈ rest, assigned.lookup tag = some value then value else none) := by
  induction rest generalizing value with
  | nil => simp [keptAll]
  | cons assigned rest ih =>
    have hentry : keptEntry definitions assigned true tag value =
        some (if assigned.lookup tag = some value then value else none) := by
      rw [keptEntry, hstate, Option.bind_some]
      unfold keptValue
      rw [if_pos huser, if_neg (by simp [hvalue]), if_pos rfl]
      cases assigned.lookup tag with
      | none => simp
      | some valueNew => by_cases heq : value = valueNew <;> simp [heq, eq_comm]
    rw [keptAll, List.foldl_cons, Option.bind_some, hentry, ← keptAll, ih]
    by_cases heq : assigned.lookup tag = some value
    · simp [heq]
    · simp [heq]

end Run

/-! ## Inheritance -/

/-- The final tags of an array to whose positions the tags were assigned. -/
structure Inherits (initial : UserTags) (maps : List TagInfo) (tags : TagInfo) : Prop where
  inherited (tag : String) (h : tag ∉ initial.tags) (value : Option ℤ) :
    tags.lookup tag = some value ↔ ∀ assigned ∈ maps, assigned.lookup tag = some value
  fixed (tag : String) (value : Option ℤ) (state : TagState) (h : initial.tags.lookup tag = some value)
    (hstate : initial.definitions.lookup tag = some state) (hvalue : state.valueDefined = true) :
    tags.lookup tag = some value
  common (tag : String) (state : TagState) (h : tag ∈ initial.tags)
    (hstate : initial.definitions.lookup tag = some state) (hvalue : state.valueDefined = false) (v : ℤ) :
    tags.lookup tag = some (some v) ↔ ∀ assigned ∈ maps, assigned.lookup tag = some (some v)
  unknown (tag : String) (state : TagState) (h : tag ∈ initial.tags)
    (hstate : initial.definitions.lookup tag = some state) (hvalue : state.valueDefined = false)
    (hdiffer : ¬ ∃ v : ℤ, ∀ assigned ∈ maps, assigned.lookup tag = some (some v)) :
    tags.lookup tag = some none

/-- The tags are determined by the assigned tables, whatever their order. -/
theorem Inherits.unique {initial : UserTags} {maps maps' : List TagInfo} {tags tags' : TagInfo}
    (h : Inherits initial maps tags) (h' : Inherits initial maps' tags')
    (hmaps : ∀ assigned, assigned ∈ maps ↔ assigned ∈ maps') (tag : String) :
    tags.lookup tag = tags'.lookup tag := by
  have hall : ∀ value, (∀ assigned ∈ maps, assigned.lookup tag = some value) ↔
      ∀ assigned ∈ maps', assigned.lookup tag = some value := fun value =>
    ⟨fun hv assigned ha => hv assigned ((hmaps assigned).mpr ha),
      fun hv assigned ha => hv assigned ((hmaps assigned).mp ha)⟩
  by_cases htag : tag ∈ initial.tags
  · obtain ⟨value, hvalue⟩ := AList.mem_iff_exists_lookup.mp htag
    obtain ⟨state, hstate, -⟩ := initial.defined tag htag
    cases hgiven : state.valueDefined with
    | true => rw [h.fixed tag value state hvalue hstate hgiven, h'.fixed tag value state hvalue hstate hgiven]
    | false =>
      by_cases hcommon : ∃ v : ℤ, ∀ assigned ∈ maps, assigned.lookup tag = some (some v)
      · obtain ⟨v, hv⟩ := hcommon
        rw [(h.common tag state htag hstate hgiven v).mpr hv,
          (h'.common tag state htag hstate hgiven v).mpr ((hall _).mp hv)]
      · have hcommon' : ¬ ∃ v : ℤ, ∀ assigned ∈ maps', assigned.lookup tag = some (some v) :=
          fun ⟨v, hv⟩ => hcommon ⟨v, (hall _).mpr hv⟩
        rw [h.unknown tag state htag hstate hgiven hcommon, h'.unknown tag state htag hstate hgiven hcommon']
  · ext value
    exact (h.inherited tag htag value).trans ((hall value).trans (h'.inherited tag htag value).symm)

theorem exists_inherits (initial : UserTags) (first : TagInfo) (rest : List TagInfo) :
    ∃ tags definitions, propagateAll initial.tags initial.definitions first rest =
      some (tags, definitions) ∧ Inherits initial (first :: rest) tags := by
  obtain ⟨next, definitions, hfirst, hentry⟩ := performTagPropagation_first initial first
  have hdefined : ∀ tag ∈ next, tag ∈ definitions := by
    intro tag htag
    by_cases hinit : tag ∈ initial.tags
    · obtain ⟨value, hvalue⟩ := AList.mem_iff_exists_lookup.mp hinit
      obtain ⟨state, hstate, -⟩ := initial.defined tag hinit
      exact AList.mem_iff_exists_lookup.mpr ⟨state, ((hentry tag).1 value state hvalue hstate).2⟩
    · obtain ⟨hlookup, hstate⟩ := (hentry tag).2 hinit
      obtain ⟨value, hvalue⟩ := AList.mem_iff_exists_lookup.mp htag
      rw [hlookup] at hvalue
      exact AList.mem_iff_exists_lookup.mpr
        ⟨_, hstate (AList.mem_iff_exists_lookup.mpr ⟨value, hvalue⟩)⟩
  obtain ⟨tags, hrest, hall⟩ := propagateRest_lookup rest hdefined
  refine ⟨tags, definitions, by rw [propagateAll, hfirst]; exact hrest, ?_⟩
  have hcommon (tag : String) (state : TagState) (htag : tag ∈ initial.tags)
      (hstate : initial.definitions.lookup tag = some state) (hgiven : state.valueDefined = false) :
      tags.lookup tag = some (if ∀ assigned ∈ rest, assigned.lookup tag =
        some ((first.lookup tag).getD none) then (first.lookup tag).getD none else none) := by
    obtain ⟨value, hvalue⟩ := AList.mem_iff_exists_lookup.mp htag
    obtain ⟨state', hstate', huser⟩ := initial.defined tag htag
    obtain rfl : state = state' := Option.some.inj (hstate.symm.trans hstate')
    obtain ⟨hlookup, hdefinition⟩ := (hentry tag).1 value state hvalue hstate
    rw [hall, hlookup, if_neg (by simp [hgiven]), keptAll_defined hdefinition huser hgiven]
  constructor
  case inherited =>
    intro tag htag value
    obtain ⟨hlookup, hstate⟩ := (hentry tag).2 htag
    rw [hall, hlookup, List.forall_mem_cons]
    cases hassigned : first.lookup tag with
    | none => simp [keptAll_none]
    | some value' =>
      rw [keptAll_inherited (hstate (AList.mem_iff_exists_lookup.mpr ⟨value', hassigned⟩)),
        Option.some.injEq]
      constructor
      · rintro ⟨rfl, hrest⟩
        exact ⟨rfl, hrest⟩
      · rintro ⟨rfl, hrest⟩
        exact ⟨rfl, hrest⟩
  case fixed =>
    intro tag value state hvalue hstate hgiven
    obtain ⟨state', hstate', huser⟩ :=
      initial.defined tag (AList.mem_iff_exists_lookup.mpr ⟨value, hvalue⟩)
    obtain rfl : state = state' := Option.some.inj (hstate.symm.trans hstate')
    obtain ⟨hlookup, hdefinition⟩ := (hentry tag).1 value state hvalue hstate
    rw [hall, hlookup, if_pos hgiven, keptAll_fixed hdefinition huser hgiven]
  case common =>
    intro tag state htag hstate hgiven v
    rw [hcommon tag state htag hstate hgiven, List.forall_mem_cons]
    cases first.lookup tag with
    | none => simp
    | some value =>
      simp only [Option.getD_some, Option.some.injEq]
      split_ifs with hsame
      · constructor
        · rintro rfl
          exact ⟨rfl, hsame⟩
        · exact fun h => h.1
      · constructor
        · intro h
          cases h
        · rintro ⟨rfl, hrest⟩
          exact absurd hrest hsame
  case unknown =>
    intro tag state htag hstate hgiven hdiffer
    rw [hcommon tag state htag hstate hgiven]
    split_ifs with hsame
    · cases hassigned : first.lookup tag with
      | none => rfl
      | some value =>
        cases value with
        | none => rfl
        | some v =>
          rw [hassigned] at hsame
          exact absurd ⟨v, List.forall_mem_cons.mpr ⟨hassigned, hsame⟩⟩ hdiffer
    · rfl

/-- Tags are inherited from all assignments together, in whatever order these are made. -/
theorem propagateAll_inherits (initial : UserTags) (first : TagInfo) (rest : List TagInfo) :
    ∃ tags definitions, propagateAll initial.tags initial.definitions first rest =
        some (tags, definitions) ∧ Inherits initial (first :: rest) tags ∧
      ∀ first' rest', (first' :: rest').Perm (first :: rest) →
        ∃ tags' definitions', propagateAll initial.tags initial.definitions first' rest' =
            some (tags', definitions') ∧ ∀ tag, tags'.lookup tag = tags.lookup tag := by
  obtain ⟨tags, definitions, hall, hinherits⟩ := exists_inherits initial first rest
  refine ⟨tags, definitions, hall, hinherits, fun first' rest' hperm => ?_⟩
  obtain ⟨tags', definitions', hall', hinherits'⟩ := exists_inherits initial first' rest'
  exact ⟨tags', definitions', hall', hinherits'.unique hinherits fun assigned => hperm.mem_iff⟩

end Circom.ConstraintGeneration
