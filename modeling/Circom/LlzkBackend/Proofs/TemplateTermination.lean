import Circom.LlzkBackend.Proofs.TemplateWalks
import Mathlib.Data.Finset.Image

/-!
# Termination of template preparation

The specializations that are under way have different templates, up to the reentries that are counted, and
every retry adds a template to one of the two sets that the retries grow.
-/

namespace Circom.LlzkBackend

open Circom.Ast
open Circom.Lib (Ensures HashMap bind_eq_ok ensures_get_bind ensures_iff ensures_modify ensures_pure
  ensures_set ensures_throw)

variable {attempt : Attempt} {s t : Preparation} {key : Specialization} {E : Interruption → Prop}
variable {opened : Opened} {fuel nesting : ℕ}

/-- The names of the templates of a program. -/
def templateNames (templates : HashMap String TemplateData) : Finset String := templates.keys.toFinset

/-! ## Opening a template -/

/-- What is checked before a template is specialized. -/
structure Opens (attempt : Attempt) (key : Specialization) (opened : Opened) : Prop where
  original : attempt.originals.lookup key.id = some opened.old
  lengths : opened.old.nameOfParams.length = key.shapes.length
  name : key.name = .ok opened.name
  unused : opened.name ≠ key.id → opened.name ∉ attempt.originals
  signature : bindFormals opened.old.body.getMeta .empty opened.old.nameOfParams key.shapes key.values =
    .ok opened.signature

theorem opens_of_openTemplate (h : attempt.openTemplate key = .ok opened) : Opens attempt key opened := by
  unfold Attempt.openTemplate at h
  split at h
  · cases h
  · next old hold =>
    split_ifs at h with hlengths
    obtain ⟨name, hname, h⟩ := bind_eq_ok h
    split_ifs at h with hcollision
    obtain ⟨signature, hsignature, h⟩ := bind_eq_ok h
    cases h
    exact ⟨hold, not_not.mp hlengths, hname, fun hne hmem => hcollision ⟨hne, hmem⟩, hsignature⟩

theorem ensures_checkActive {Q : Unit → Preparation → Prop} (hfailed : ∀ failure, E (.failed failure))
    (hbind : key.id ∉ attempt.boundArrays → E (.bindArrayValues key.id))
    (hQ : (key.id ∈ attempt.expanded → key ∉ s.active) → Q () s) :
    Ensures (checkActive attempt key) s Q E := by
  refine ensures_get_bind (Ensures.ite (fun h => ?_) fun h => ensures_pure ?_)
  · exact Ensures.ite (fun h => ensures_throw (hbind h)) fun _ => ensures_throw (hfailed _)
  · exact hQ fun hid hactive => h ⟨hid, hactive⟩

theorem ensures_checkDepth {Q : Unit → Preparation → Prop} (hfailed : ∀ failure, E (.failed failure))
    (hbind : key.id ∉ attempt.boundArrays → E (.bindArrayValues key.id))
    (hQ : (attempt.isRecursive key s.active = true → s.recursiveDepth < maxRecursiveDepth) → Q () s) :
    Ensures (checkDepth attempt key) s Q E := by
  refine ensures_get_bind (Ensures.ite (fun h => ?_) fun h => ensures_pure ?_)
  · exact Ensures.ite (fun h => ensures_throw (hbind h)) fun _ => ensures_throw (hfailed _)
  · exact hQ fun hrecursive => Nat.lt_of_not_le fun hle => h ⟨hrecursive, hle⟩

/-- A new specialization is entered, its body is walked, and it is left. -/
theorem ensures_specializeNew {walk : Bool → Statement → Shapes → Constants → Prepares Walked}
    {Q : String → Preparation → Prop} (hfailed : ∀ failure, E (.failed failure))
    (hwalk : ∀ opened, Opens attempt key opened →
      Ensures (walk (key.id ∈ attempt.expanded) opened.old.body opened.signature.shapes
          opened.signature.constants)
        (s.enter key opened.name (attempt.isRecursive key s.active))
        (fun r t => ∀ template, opened.close key r.1 = .ok template →
          Q opened.name (t.leave key opened.name template (attempt.isRecursive key s.active))) E) :
    Ensures (specializeNew attempt walk key) s Q E := by
  refine ensures_get_bind ?_
  refine Ensures.bind (P := fun opened t => attempt.openTemplate key = .ok opened ∧ t = s)
    (ensures_prepared (fun _ h => ⟨h, rfl⟩) hfailed) ?_
  rintro opened _ ⟨hopened, rfl⟩
  refine Ensures.bind (P := fun _ t => t = _) (ensures_set rfl) ?_
  rintro _ _ rfl
  refine (hwalk opened (opens_of_openTemplate hopened)).bind fun r t hr => ?_
  refine Ensures.bind (P := fun template t' => opened.close key r.1 = .ok template ∧ t' = t)
    (ensures_prepared (fun _ h => ⟨h, rfl⟩) hfailed) ?_
  rintro template _ ⟨htemplate, rfl⟩
  refine Ensures.bind (P := fun _ t => t = _) (ensures_modify rfl) ?_
  rintro _ _ rfl
  exact ensures_pure (hr template htemplate)

/-! ## What is under way -/

/-- A specialization that is under way, or complete, has passed the checks and is in the table. -/
structure Registered (attempt : Attempt) (s : Preparation) (key : Specialization) : Prop where
  original : key.id ∈ attempt.originals
  table : key ∈ s.specializations
  params : ∀ old, attempt.originals.lookup key.id = some old → old.nameOfParams.length = key.shapes.length
  values : key.values.length = key.shapes.length
  unbound : key.id ∉ attempt.expanded → ∀ value ∈ key.values, value = none

/-- The specializations that are under way: all but the counted reentries have different templates. -/
structure Stacked (attempt : Attempt) (s : Preparation) : Prop where
  budget : s.loopBudget = none
  registered : ∀ key ∈ s.active, Registered attempt s key
  card : s.active.card ≤ (s.active.image Specialization.id).card + s.recursiveDepth
  depth : s.recursiveDepth ≤ maxRecursiveDepth

/-- The table has grown, and nothing else is under way than before. -/
structure Resumes (s t : Preparation) : Prop where
  budget : t.loopBudget = none
  active : t.active = s.active
  depth : t.recursiveDepth = s.recursiveDepth
  table : ∀ key ∈ s.specializations, key ∈ t.specializations

theorem Resumes.refl (h : s.loopBudget = none) : Resumes s s := ⟨h, rfl, rfl, fun _ h => h⟩

theorem Resumes.trans {u : Preparation} (h : Resumes s t) (h' : Resumes t u) : Resumes s u where
  budget := h'.budget
  active := h'.active.trans h.active
  depth := h'.depth.trans h.depth
  table key hkey := h'.table key (h.table key hkey)

theorem Stacked.resumes (h : Stacked attempt s) (h' : Resumes s t) : Stacked attempt t where
  budget := h'.budget
  registered key hkey := by
    rw [h'.active] at hkey
    have hregistered := h.registered key hkey
    exact { hregistered with table := h'.table key hregistered.table }
  card := by
    rw [h'.active, h'.depth]
    exact h.card
  depth := by
    rw [h'.depth]
    exact h.depth

/-- There are no more specializations under way than templates and counted reentries. -/
theorem Stacked.card_le (h : Stacked attempt s) :
    s.active.card ≤ (templateNames attempt.originals).card + maxRecursiveDepth := by
  have himage : s.active.image Specialization.id ⊆ templateNames attempt.originals := by
    intro id hid
    obtain ⟨key, hkey, rfl⟩ := Finset.mem_image.mp hid
    exact List.mem_toFinset.mpr (h.registered key hkey).original
  exact Nat.le_trans h.card (Nat.add_le_add (Finset.card_le_card himage) h.depth)

theorem eq_of_forall_eq_none {α : Type} {l l' : List (Option α)} (h : ∀ o ∈ l, o = none)
    (h' : ∀ o ∈ l', o = none) (hlength : l.length = l'.length) : l = l' := by
  rw [List.eq_replicate_of_mem h, List.eq_replicate_of_mem h', hlength]

/-- A template that is not expanded is under way at most once: asked for again without arrays, it is in the
table. -/
theorem Requested.not_active (h : Requested attempt s.active key) (hstacked : Stacked attempt s)
    (hid : key.id ∉ attempt.expanded) (hopens : Opens attempt key opened)
    (hkey : key ∉ s.active) : ∀ other ∈ s.active, other.id ≠ key.id := by
  intro other hother heq
  have hregistered := hstacked.registered other hother
  have hfresh := h.fresh hid
  have hnone : ∀ shapes : List (Option (List ℕ)), ¬ shapes.any Option.isSome = true →
      ∀ o ∈ shapes, o = none := by
    intro shapes hany o ho
    cases o with
    | none => rfl
    | some shape => exact absurd (List.any_eq_true.mpr ⟨_, ho, rfl⟩) hany
  have hshapes : other.shapes = key.shapes := by
    refine eq_of_forall_eq_none (hnone _ fun hany => hfresh ⟨other, hother, heq, Or.inr hany⟩)
      (hnone _ fun hany => hfresh ⟨other, hother, heq, Or.inl hany⟩) ?_
    rw [← hregistered.params opened.old (heq ▸ hopens.original), hopens.lengths]
  have hvalues : other.values = key.values := by
    refine eq_of_forall_eq_none (hregistered.unbound (heq ▸ hid)) (h.unbound hid) ?_
    rw [hregistered.values, h.lengths, hshapes]
  have hother' : other = key := by
    cases other
    cases key
    cases heq
    cases hshapes
    cases hvalues
    rfl
  exact hkey (hother' ▸ hother)

theorem Stacked.enter (hstacked : Stacked attempt s) (h : Requested attempt s.active key) (hactive : key ∉ s.active)
    (hdepth : attempt.isRecursive key s.active = true → s.recursiveDepth < maxRecursiveDepth)
    (hopens : Opens attempt key opened) :
    Stacked attempt (s.enter key opened.name (attempt.isRecursive key s.active)) where
  budget := hstacked.budget
  registered other hother := by
    rcases Finset.mem_insert.mp hother with rfl | hother
    · exact
        { original := h.original
          table := (AList.mem_insert s.specializations).mpr (Or.inl rfl)
          params := fun old hold => by
            rw [hopens.original] at hold
            cases hold
            exact hopens.lengths
          values := h.lengths
          unbound := h.unbound }
    · have hregistered := hstacked.registered other hother
      exact { hregistered with
        table := (AList.mem_insert s.specializations).mpr (Or.inr hregistered.table) }
  card := by
    change (insert key s.active).card ≤ ((insert key s.active).image Specialization.id).card +
      (s.recursiveDepth + (attempt.isRecursive key s.active).toNat)
    rw [Finset.card_insert_of_notMem hactive, Finset.image_insert]
    have hcard := hstacked.card
    cases hrecursive : attempt.isRecursive key s.active with
    | true =>
      have hle := Finset.card_le_card (Finset.subset_insert key.id (s.active.image Specialization.id))
      rw [Bool.toNat_true]
      omega
    | false =>
      have hnew : key.id ∉ s.active.image Specialization.id := by
        intro hmem
        obtain ⟨other, hother, heq⟩ := Finset.mem_image.mp hmem
        by_cases hid : key.id ∈ attempt.expanded
        · rw [Attempt.isRecursive, decide_eq_false_iff_not] at hrecursive
          exact hrecursive ⟨hid, other, hother, heq⟩
        · exact h.not_active hstacked hid hopens hactive other hother heq
      rw [Finset.card_insert_of_notMem hnew]
      omega
  depth := by
    change s.recursiveDepth + (attempt.isRecursive key s.active).toNat ≤ maxRecursiveDepth
    cases hrecursive : attempt.isRecursive key s.active with
    | true =>
      rw [Bool.toNat_true]
      exact hdepth hrecursive
    | false => exact hstacked.depth

theorem Resumes.leave {name : String} {template : TemplateData} {recursive : Bool}
    (hactive : key ∉ s.active) (h : Resumes (s.enter key name recursive) t) :
    Resumes s (t.leave key name template recursive) where
  budget := h.budget
  active := by
    change t.active.erase key = s.active
    rw [h.active]
    exact Finset.erase_insert hactive
  depth := by
    change t.recursiveDepth - recursive.toNat = s.recursiveDepth
    rw [h.depth]
    exact Nat.add_sub_cancel s.recursiveDepth recursive.toNat
  table other hother := h.table other ((AList.mem_insert s.specializations).mpr (Or.inr hother))

/-! ## Specializations -/

/-- Which errors an attempt may end with whatever its fuel is. A retry names a template that the set it grows
does not have yet. -/
structure AdmitsRetries (attempt : Attempt) (E : Interruption → Prop) : Prop extends Admits attempt E where
  bindArrayValues (id : String) (horiginal : id ∈ attempt.originals) (hid : id ∉ attempt.boundArrays) :
    E (.bindArrayValues id)

/-- The nesting of specializations is bounded by the number of templates and the counted reentries. -/
theorem ensures_specialize (hE : AdmitsRetries attempt E)
    (hfuel : E .outOfFuel ∨ ∀ id old, attempt.originals.lookup id = some old → walkFuel old.body ≤ fuel) (nesting : ℕ)
    (hstacked : Stacked attempt s)
    (hnesting : E .outOfFuel ∨ (templateNames attempt.originals).card + maxRecursiveDepth + 1 ≤ nesting + s.active.card)
    (h : Requested attempt s.active key) :
    Ensures (specialize attempt fuel nesting key) s (fun _ t => Resumes s t) E := by
  induction nesting generalizing key s with
  | zero =>
    have hcard := hstacked.card_le
    exact ensures_throw (hnesting.resolve_right fun hle => by omega)
  | succ nesting ih =>
    have hbind : key.id ∉ attempt.boundArrays → E (.bindArrayValues key.id) :=
      hE.bindArrayValues key.id h.original
    refine Ensures.bind (P := fun _ t => s = t ∧ (key.id ∈ attempt.expanded → key ∉ s.active))
      (ensures_checkActive hE.failed hbind fun hexpanded => ⟨rfl, hexpanded⟩) ?_
    rintro _ _ ⟨rfl, hexpanded⟩
    refine ensures_get_bind ?_
    cases hlookup : s.specializations.lookup key with
    | some name => exact ensures_pure (Resumes.refl hstacked.budget)
    | none =>
      have hactive : key ∉ s.active := fun hkey =>
        AList.lookup_eq_none.mp hlookup (hstacked.registered key hkey).table
      refine Ensures.bind (P := fun _ t => s = t ∧
        (attempt.isRecursive key s.active = true → s.recursiveDepth < maxRecursiveDepth))
        (ensures_checkDepth hE.failed hbind fun hdepth => ⟨rfl, hdepth⟩) ?_
      rintro _ _ ⟨rfl, hdepth⟩
      refine ensures_specializeNew hE.failed fun opened hopens => ?_
      have hentered := hstacked.enter h hactive hdepth hopens
      -- Inside the body one more specialization is under way, and one level of nesting less is left.
      have hinner : SpecializeKeeps attempt (specialize attempt fuel nesting)
          (fun t => Resumes (s.enter key opened.name (attempt.isRecursive key s.active)) t) E := by
        intro other t ht hrequested
        refine (ih (hentered.resumes ht) (hnesting.imp_right fun hle => ?_) hrequested).imp
          fun _ _ hu => ht.trans hu
        have hcard : t.active.card = s.active.card + 1 := by
          rw [ht.active]
          exact Finset.card_insert_of_notMem hactive
        omega
      refine (ensures_statement hE.toAdmits (fun _ ht => ht.budget) hinner _ fuel opened.old.body
        (hfuel.imp_right fun hle => hle _ _ hopens.original) opened.signature.shapes
        opened.signature.constants _ (Resumes.refl hentered.budget)).imp ?_
      exact fun r t ht template _ => Resumes.leave hactive ht

theorem stacked_empty : Stacked attempt .empty where
  budget := rfl
  registered _ h := by cases h
  card := Nat.zero_le _
  depth := Nat.zero_le _

/-- Fuel that suffices for every body of the program. -/
def bodyFuel (originals : HashMap String TemplateData) : ℕ :=
  walkFuels (originals.pairs.map fun e => e.2.body)

theorem walkFuel_le_bodyFuel {originals : HashMap String TemplateData} {id : String} {old : TemplateData}
    (h : originals.lookup id = some old) : walkFuel old.body ≤ bodyFuel originals :=
  walkFuels_le.mp (Nat.le_refl _) _ (List.mem_map_of_mem (AList.mem_pairs_iff_lookup.mpr h))

/-- An attempt ends with a result or an error other than the lack of fuel. -/
theorem ensures_run (hE : AdmitsRetries attempt E) (hfuel : E .outOfFuel ∨ bodyFuel attempt.originals ≤ fuel)
    (hnesting : E .outOfFuel ∨ (templateNames attempt.originals).card + maxRecursiveDepth + 1 ≤ nesting)
    (main : Expression) :
    Ensures (call attempt (specialize attempt fuel nesting) ∅ ∅ main) .empty
      (fun _ t => Resumes .empty t) E := by
  refine ensures_call hE.toAdmits (fun key t ht hrequested => ?_) (Resumes.refl rfl) ∅ ∅ main
  have hbodies : E .outOfFuel ∨ ∀ id old, attempt.originals.lookup id = some old →
      walkFuel old.body ≤ fuel :=
    hfuel.imp_right fun hle id old hold => Nat.le_trans (walkFuel_le_bodyFuel hold) hle
  refine (ensures_specialize hE hbodies nesting (stacked_empty.resumes ht)
    (hnesting.imp_right fun hle => ?_) hrequested).imp fun _ _ hu => ht.trans hu
  omega

/-! ## Callers -/

section Callers

variable (templates : HashMap String TemplateData)

theorem length_callers_le (callee : String) :
    (callers templates callee).length ≤ (templateNames templates).card := by
  refine Nat.le_trans (List.length_filterMap_le _ _) (Nat.le_of_eq ?_)
  rw [templateNames, List.toFinset_card_of_nodup templates.keys_nodup, callGraph, AList.pairs_mapValues,
    List.length_map, ← AList.pairs_map_fst, List.length_map]

theorem callers_subset {callee caller : String} (h : caller ∈ callers templates callee) :
    caller ∈ templateNames templates := by
  obtain ⟨e, he, hcaller⟩ := List.mem_filterMap.mp h
  split_ifs at hcaller
  cases hcaller
  have hkey : e.1 ∈ (callGraph templates).keys := by
    rw [← AList.pairs_map_fst]
    exact List.mem_map_of_mem he
  rw [callGraph, AList.keys_mapValues] at hkey
  exact List.mem_toFinset.mpr hkey

/-- The worklist ends: every template is taken once, with as many callers as there are templates at most. -/
theorem closeUnderCallers_ends (fuel : ℕ) (result : Finset String) (pending : List String)
    (hresult : result ⊆ templateNames templates) (hpending : ∀ name ∈ pending, name ∈ templateNames templates)
    (hfuel : pending.length + ((templateNames templates).card + 1) *
      ((templateNames templates).card - result.card) ≤ fuel) :
    ∃ callers, closeUnderCallers templates fuel result pending = some callers ∧ result ⊆ callers ∧
      (∀ name ∈ pending, name ∈ callers) ∧ callers ⊆ templateNames templates := by
  induction fuel generalizing result pending with
  | zero =>
    have hnil : pending = [] := List.length_eq_zero_iff.mp (by omega)
    subst hnil
    exact ⟨result, rfl, Finset.Subset.refl _, fun _ h => (by cases h), hresult⟩
  | succ fuel ih =>
    cases pending with
    | nil => exact ⟨result, rfl, Finset.Subset.refl _, fun _ h => (by cases h), hresult⟩
    | cons name pending =>
      have hname := hpending name List.mem_cons_self
      have hrest : ∀ other ∈ pending, other ∈ templateNames templates :=
        fun other hother => hpending other (List.mem_cons_of_mem _ hother)
      rw [List.length_cons] at hfuel
      rw [closeUnderCallers]
      by_cases hmem : name ∈ result
      · rw [if_pos hmem]
        obtain ⟨callers, hcallers, hsub, hall, hnames⟩ := ih result pending hresult hrest (by omega)
        exact ⟨callers, hcallers, hsub, List.forall_mem_cons.mpr ⟨hsub hmem, hall⟩, hnames⟩
      · rw [if_neg hmem]
        have hinsert : insert name result ⊆ templateNames templates :=
          Finset.insert_subset hname hresult
        have hcard := Finset.card_le_card hinsert
        rw [Finset.card_insert_of_notMem hmem] at hcard
        have hlength := length_callers_le templates name
        obtain ⟨callers', hcallers, hsub, hall, hnames⟩ := ih (insert name result)
          ((callers templates name).reverse ++ pending) hinsert (fun other hother => by
            rcases List.mem_append.mp hother with hother | hother
            · exact callers_subset templates (List.mem_reverse.mp hother)
            · exact hrest other hother) (by
            rw [List.length_append, List.length_reverse, Finset.card_insert_of_notMem hmem]
            have hsplit : (templateNames templates).card - result.card =
                ((templateNames templates).card - (result.card + 1)) + 1 := by omega
            rw [hsplit, Nat.mul_add, Nat.mul_one] at hfuel
            omega)
        exact ⟨callers', hcallers, fun other hother => hsub (Finset.mem_insert_of_mem hother),
          List.forall_mem_cons.mpr ⟨hsub (Finset.mem_insert_self name result),
            fun other hother => hall other (List.mem_append_right _ hother)⟩, hnames⟩

/-- Fuel that suffices for the worklist. -/
def callersFuel : ℕ :=
  1 + ((templateNames templates).card + 1) * (templateNames templates).card

theorem callersOf_ends (hfuel : callersFuel templates ≤ fuel) {target : String} (htarget : target ∈ templates) :
    ∃ callers, callersOf templates fuel target = some callers ∧ target ∈ callers ∧
      callers ⊆ templateNames templates := by
  obtain ⟨callers, hcallers, -, hall, hnames⟩ := closeUnderCallers_ends templates fuel ∅ [target]
    (Finset.empty_subset _) (fun name hname => by
      rw [List.mem_singleton.mp hname]
      exact List.mem_toFinset.mpr htarget) hfuel
  exact ⟨callers, hcallers, hall target (List.mem_singleton_self target), hnames⟩

end Callers

/-! ## The pass -/

/-- The errors of an attempt with enough fuel. -/
inductive AttemptError (attempt : Attempt) : Interruption → Prop
  | failed (failure : Failure) : AttemptError attempt (.failed failure)
  | expandRecursion (id : String) (horiginal : id ∈ attempt.originals) (hid : id ∉ attempt.expanded) :
    AttemptError attempt (.expandRecursion id)
  | bindArrayValues (id : String) (horiginal : id ∈ attempt.originals) (hid : id ∉ attempt.boundArrays) :
    AttemptError attempt (.bindArrayValues id)

theorem admitsRetries_attemptError : AdmitsRetries attempt (AttemptError attempt) where
  failed := .failed
  expandRecursion := .expandRecursion
  bindArrayValues := .bindArrayValues

theorem run_error (hfuel : bodyFuel attempt.originals ≤ fuel)
    (hnesting : (templateNames attempt.originals).card + maxRecursiveDepth + 1 ≤ nesting) {main : Expression}
    {e : Interruption} (h : attempt.run fuel nesting main = .error e) : AttemptError attempt e :=
  (ensures_iff.mp (ensures_run admitsRetries_attemptError (Or.inr hfuel) (Or.inr hnesting) main)).2 e h

/-- The names that the retries can still add. -/
def missing (names found : Finset String) : ℕ := names.card - found.card

theorem missing_union_lt {names found new : Finset String} (hnew : new ⊆ names) {id : String}
    (hid : id ∈ new) (hfresh : id ∉ found) (hfound : found ⊆ names) :
    missing names (found ∪ new) < missing names found := by
  have hlt : found.card < (found ∪ new).card := by
    refine Finset.card_lt_card (Finset.ssubset_iff_subset_ne.mpr ⟨Finset.subset_union_left, fun heq => ?_⟩)
    exact hfresh (heq ▸ Finset.mem_union_right found hid)
  have hle := Finset.card_le_card (Finset.union_subset hfound hnew)
  unfold missing
  omega

theorem prepareFrom_ends (program : ProgramArchive) (prime : ℕ)
    (hbodies : bodyFuel program.templates ≤ fuel) (hcallers : callersFuel program.templates ≤ fuel)
    (hnesting : (templateNames program.templates).card + maxRecursiveDepth + 1 ≤ nesting)
    (rounds : ℕ) {expanded boundArrays : Finset String}
    (hexpanded : expanded ⊆ templateNames program.templates)
    (hbound : boundArrays ⊆ templateNames program.templates)
    (hrounds : missing (templateNames program.templates) expanded +
      missing (templateNames program.templates) boundArrays < rounds) :
    prepareFrom program prime fuel nesting rounds expanded boundArrays ≠ .error .outOfFuel := by
  induction rounds generalizing expanded boundArrays with
  | zero => exact absurd hrounds (Nat.not_lt_zero _)
  | succ rounds ih =>
    rw [prepareFrom]
    split
    · exact Lib.ok_ne_error
    · next id hrun =>
      cases run_error hbodies hnesting hrun with
      | expandRecursion _ horiginal hid =>
        obtain ⟨callers, hcallers, hmem, hsub⟩ := callersOf_ends program.templates hcallers horiginal
        rw [hcallers]
        have hlt : missing (templateNames program.templates) (expanded ∪ callers) <
            missing (templateNames program.templates) expanded := missing_union_lt hsub hmem hid hexpanded
        exact ih (Finset.union_subset hexpanded hsub) hbound (by omega)
    · next id hrun =>
      cases run_error hbodies hnesting hrun with
      | bindArrayValues _ horiginal hid =>
        obtain ⟨callers, hcallers, hmem, hsub⟩ := callersOf_ends program.templates hcallers horiginal
        rw [hcallers]
        have hlt : missing (templateNames program.templates) (boundArrays ∪ callers) <
            missing (templateNames program.templates) boundArrays := missing_union_lt hsub hmem hid hbound
        exact ih hexpanded (Finset.union_subset hbound hsub) (by omega)
    · next e _ _ hrun =>
      have herror := run_error hbodies hnesting hrun
      intro h
      cases h
      cases herror

/-- Fuel that suffices for a program. -/
def prepareFuel (program : ProgramArchive) : ℕ :=
  bodyFuel program.templates + callersFuel program.templates +
    ((templateNames program.templates).card + maxRecursiveDepth + 1) +
    (2 * (templateNames program.templates).card + 1)

/-- Preparation ends for every program. An attempt whose nesting of specializations is bounded by the number of
templates and the recursive depth ends, a retry adds a template to one of two sets of templates, and a
speculative walk ends within its visits. -/
theorem prepare_terminates (program : ProgramArchive) (prime : ℕ) :
    (∀ fuel, prepareFuel program ≤ fuel → prepare fuel program prime ≠ .error .outOfFuel) ∧
    (∀ attempt : Attempt, attempt.originals = program.templates → ∀ fuel nesting main,
      bodyFuel program.templates ≤ fuel → callersFuel program.templates ≤ fuel →
      (templateNames program.templates).card + maxRecursiveDepth + 1 ≤ nesting →
      attempt.run fuel nesting main ≠ .error .outOfFuel ∧
      (∀ id, attempt.run fuel nesting main = .error (.expandRecursion id) → id ∉ attempt.expanded ∧
        ∃ callers, callersOf program.templates fuel id = some callers ∧ id ∈ callers ∧
          callers ⊆ templateNames program.templates) ∧
      ∀ id, attempt.run fuel nesting main = .error (.bindArrayValues id) → id ∉ attempt.boundArrays ∧
        ∃ callers, callersOf program.templates fuel id = some callers ∧ id ∈ callers ∧
          callers ⊆ templateNames program.templates) ∧
    ∀ (attempt : Attempt) (specialize : Specialization → Prepares String) (s : Preparation) fuel stmt
      shapes constants, maxLoopSteps < fuel →
      Ensures (statement attempt specialize true fuel stmt shapes constants) (s.withBudget maxLoopSteps)
        (fun _ t => ∃ m < maxLoopSteps, t = s.withBudget m) (fun e => e ≠ .outOfFuel) := by
  refine ⟨fun fuel hfuel => ?_, ?_, ?_⟩
  · unfold prepareFuel at hfuel
    refine prepareFrom_ends program prime (by omega) (by omega) (by omega) fuel (Finset.empty_subset _)
      (Finset.empty_subset _) ?_
    rw [missing, Finset.card_empty]
    omega
  · rintro attempt hprogram fuel nesting main hbodies hcallers hnesting
    rw [← hprogram] at hbodies hcallers hnesting ⊢
    refine ⟨fun h => ?_, fun id h => ?_, fun id h => ?_⟩
    · cases run_error hbodies hnesting h
    · cases run_error hbodies hnesting h with
      | expandRecursion _ horiginal hid =>
        exact ⟨hid, callersOf_ends attempt.originals hcallers horiginal⟩
    · cases run_error hbodies hnesting h with
      | bindArrayValues _ horiginal hid =>
        exact ⟨hid, callersOf_ends attempt.originals hcallers horiginal⟩
  · intro attempt specialize s fuel stmt shapes constants hfuel
    refine (statement_probe attempt specialize s fuel maxLoopSteps stmt shapes constants).mono
      (fun r t h => h.2) fun e he heq => ?_
    cases he with
    | unresolvedLoop => cases heq
    | failed failure => cases heq
    | outOfFuel hle => omega

end Circom.LlzkBackend
