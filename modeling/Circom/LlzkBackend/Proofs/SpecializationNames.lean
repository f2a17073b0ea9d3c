import Circom.Lib.Outcomes
import Circom.Lib.Separators
import Circom.LlzkBackend.TemplateArrays

/-!
# Names of specializations

The name of a specialization is the name of its template and pieces behind `$`, which can be read back. Only
specializations of a template whose name is that of another one with the shapes of arguments appended can get
the same name as those of the other one.
-/

namespace Circom.LlzkBackend

open Circom.Ast
open Circom.Lib (HashMap bind_eq_ok decimal joined positioned)

variable {value : ConstantValue} {texts : List (Option (List Char))} {shapes : List (Option (List ℕ))}
variable {values : List (Option ConstantValue)} {scalars shape : List ℕ} {position : ℕ}

/-! ## Texts -/

theorem numbersSuffix_toList (ns : List ℕ) : (numbersSuffix ns).toList = joined '_' (ns.map decimal) := by
  induction ns with
  | nil => rfl
  | cons n ns ih =>
    rw [numbersSuffix, String.toList_append, String.toList_append, ih]
    rfl

/-- A shape without its first separator. -/
def shapeText : List ℕ → List Char
  | [] => []
  | d :: ds => decimal d ++ joined '_' (ds.map decimal)

theorem shapesSuffix_toList (position : ℕ) (h : ∀ shape, some shape ∈ shapes → shape ≠ []) :
    (shapesSuffix position shapes).toList =
      joined '$' (positioned position (shapes.map (Option.map shapeText))) := by
  induction shapes generalizing position with
  | nil => rfl
  | cons o shapes ih =>
    have ih := fun position => ih position fun shape hshape => h shape (List.mem_cons_of_mem _ hshape)
    cases o with
    | none => exact ih (position + 1)
    | some shape =>
      obtain ⟨d, ds, rfl⟩ := List.exists_cons_of_ne_nil (h shape List.mem_cons_self)
      rw [shapesSuffix, String.toList_append, String.toList_append, String.toList_append,
        numbersSuffix_toList, ih]
      simp [positioned, joined, shapeText, decimal]

theorem shapeText_injective {shape' : List ℕ} (h : shape ≠ []) (h' : shape' ≠ [])
    (heq : shapeText shape = shapeText shape') : shape = shape' := by
  obtain ⟨d, ds, rfl⟩ := List.exists_cons_of_ne_nil h
  obtain ⟨d', ds', rfl⟩ := List.exists_cons_of_ne_nil h'
  have hjoined : joined '_' ((d :: ds).map decimal) = joined '_' ((d' :: ds').map decimal) :=
    congrArg (fun text => '_' :: text) heq
  exact Lib.joined_decimal_injective (by decide) hjoined

/-- The texts of bound values at the positions of the parameters. -/
inductive ValueTexts (shapes : List (Option (List ℕ))) :
    ℕ → List (Option ConstantValue) → List (Option (List Char)) → Prop
  | nil {position : ℕ} : ValueTexts shapes position [] []
  | none {position : ℕ} {values : List (Option ConstantValue)} {texts : List (Option (List Char))}
    (h : ValueTexts shapes (position + 1) values texts) :
    ValueTexts shapes position (none :: values) (none :: texts)
  | scalar {position n : ℕ} {values : List (Option ConstantValue)} {texts : List (Option (List Char))}
    (h : ValueTexts shapes (position + 1) values texts) :
    ValueTexts shapes position (some (.scalar n) :: values) (some (decimal n) :: texts)
  | array {position : ℕ} {elements : List ConstantValue} {shape scalars : List ℕ}
    {values : List (Option ConstantValue)} {texts : List (Option (List Char))}
    (hshape : shapes[position]? = some (some shape))
    (hscalars : arrayScalars (.array elements) shape = .ok scalars)
    (h : ValueTexts shapes (position + 1) values texts) :
    ValueTexts shapes position (some (.array elements) :: values)
      (some ("array".toList ++ joined '_' (scalars.map decimal)) :: texts)

theorem valueTexts_of_suffix {suffix : String} (h : valuesSuffix shapes position values = .ok suffix) :
    ∃ texts, ValueTexts shapes position values texts ∧
      suffix.toList = joined '$' (positioned position texts) := by
  induction values generalizing position suffix with
  | nil =>
    cases h
    exact ⟨[], .nil, rfl⟩
  | cons o values ih =>
    match o with
    | none =>
      obtain ⟨texts, htexts, hsuffix⟩ := ih h
      exact ⟨none :: texts, .none htexts, hsuffix⟩
    | some (.scalar n) =>
      obtain ⟨rest, hrest, h⟩ := bind_eq_ok h
      obtain ⟨texts, htexts, hsuffix⟩ := ih hrest
      cases h
      refine ⟨_, .scalar htexts, ?_⟩
      simp [hsuffix, positioned, joined, decimal]
    | some (.array elements) =>
      rw [valuesSuffix] at h
      split at h
      · next shape hshape =>
        obtain ⟨scalars, hscalars, h⟩ := bind_eq_ok h
        obtain ⟨rest, hrest, h⟩ := bind_eq_ok h
        obtain ⟨texts, htexts, hsuffix⟩ := ih hrest
        cases h
        refine ⟨_, .array hshape hscalars htexts, ?_⟩
        simp [hsuffix, numbersSuffix_toList, positioned, joined, decimal]
      · cases h
      · cases h

theorem ValueTexts.length_eq (h : ValueTexts shapes position values texts) : texts.length = values.length := by
  induction h with
  | nil => rfl
  | none _ ih => rw [List.length_cons, List.length_cons, ih]
  | scalar _ ih => rw [List.length_cons, List.length_cons, ih]
  | array _ _ _ ih => rw [List.length_cons, List.length_cons, ih]

/-! ## Constant arrays -/

theorem arrayScalars_cons {d : ℕ} {rest : List ℕ} (h : arrayScalars value (d :: rest) = .ok scalars) :
    ∃ values, value = .array values ∧ values.length = d ∧ allScalars values rest = .ok scalars := by
  cases value with
  | scalar n => cases h
  | array values =>
    rw [arrayScalars] at h
    split_ifs at h with hlength
    exact ⟨values, rfl, hlength, h⟩

theorem arrayScalars_nil (h : arrayScalars value [] = .ok scalars) : ∃ n, value = .scalar n ∧ scalars = [n] := by
  cases value with
  | scalar n => exact ⟨n, rfl, (Except.ok.inj h).symm⟩
  | array values => cases h

theorem length_allScalars {values : List ConstantValue} {n : ℕ}
    (hlength : ∀ value scalars, arrayScalars value shape = .ok scalars → scalars.length = n)
    (h : allScalars values shape = .ok scalars) : scalars.length = values.length * n := by
  induction values generalizing scalars with
  | nil =>
    cases h
    exact (Nat.zero_mul n).symm
  | cons value values ih =>
    obtain ⟨first, hfirst, h⟩ := bind_eq_ok h
    obtain ⟨rest, hrest, h⟩ := bind_eq_ok h
    cases h
    rw [List.length_append, hlength value first hfirst, ih hrest, List.length_cons, Nat.succ_mul,
      Nat.add_comm]

theorem length_arrayScalars (h : arrayScalars value shape = .ok scalars) : scalars.length = shape.prod := by
  induction shape generalizing value scalars with
  | nil =>
    obtain ⟨n, -, rfl⟩ := arrayScalars_nil h
    rfl
  | cons d rest ih =>
    obtain ⟨values, -, rfl, hall⟩ := arrayScalars_cons h
    rw [length_allScalars (fun _ _ => ih) hall, List.prod_cons]

theorem allScalars_injective {values values' : List ConstantValue}
    (hinjective : ∀ value value' scalars, arrayScalars value shape = .ok scalars → arrayScalars value' shape = .ok scalars → value = value')
    (hlength : values.length = values'.length) (h : allScalars values shape = .ok scalars)
    (h' : allScalars values' shape = .ok scalars) : values = values' := by
  induction values generalizing values' scalars with
  | nil => exact (List.length_eq_zero_iff.mp hlength.symm).symm
  | cons value values ih =>
    cases values' with
    | nil => cases hlength
    | cons value' values' =>
      obtain ⟨first, hfirst, h⟩ := bind_eq_ok h
      obtain ⟨rest, hrest, h⟩ := bind_eq_ok h
      obtain ⟨first', hfirst', h'⟩ := bind_eq_ok h'
      obtain ⟨rest', hrest', h'⟩ := bind_eq_ok h'
      cases h
      -- Elements of one shape have the same number of scalars.
      have hlengths : first'.length = first.length := by
        rw [length_arrayScalars hfirst, length_arrayScalars hfirst']
      obtain ⟨rfl, rfl⟩ := List.append_inj (Except.ok.inj h') hlengths
      rw [hinjective value value' first' hfirst hfirst', ih (Nat.succ.inj hlength) hrest hrest']

/-- An array is determined by its shape and its scalars. -/
theorem arrayScalars_injective {value' : ConstantValue} (h : arrayScalars value shape = .ok scalars)
    (h' : arrayScalars value' shape = .ok scalars) : value = value' := by
  induction shape generalizing value value' scalars with
  | nil =>
    obtain ⟨n, rfl, rfl⟩ := arrayScalars_nil h
    obtain ⟨m, rfl, heq⟩ := arrayScalars_nil h'
    cases heq
    rfl
  | cons d rest ih =>
    obtain ⟨values, rfl, hlength, hall⟩ := arrayScalars_cons h
    obtain ⟨values', rfl, hlength', hall'⟩ := arrayScalars_cons h'
    rw [allScalars_injective (fun _ _ _ => ih) (hlength.trans hlength'.symm) hall hall']

theorem decimal_ne_array (n : ℕ) (rest : List Char) : decimal n ≠ "array".toList ++ rest := by
  intro h
  have hmem : 'a' ∈ decimal n := h ▸ List.mem_append_left rest (by decide)
  exact Lib.notMem_decimal (by decide) n hmem

theorem ValueTexts.injective {values' : List (Option ConstantValue)} (h : ValueTexts shapes position values texts)
    (h' : ValueTexts shapes position values' texts) : values = values' := by
  induction h generalizing values' with
  | nil =>
    cases h'
    rfl
  | none _ ih =>
    cases h' with
    | none h' => rw [ih h']
  | @scalar position n values texts _ ih =>
    generalize htext : decimal n = text at h'
    cases h' with
    | scalar h' => rw [Lib.decimal_injective htext, ih h']
    | array _ _ h' => exact absurd htext (decimal_ne_array n _)
  | @array position elements shape scalars values texts hshape hscalars _ ih =>
    generalize htext : "array".toList ++ joined '_' (scalars.map decimal) = text at h'
    cases h' with
    | scalar h' => exact absurd htext.symm (decimal_ne_array _ _)
    | array hshape' hscalars' h' =>
      rw [hshape] at hshape'
      cases hshape'
      have heq := Lib.joined_decimal_injective (by decide) (List.append_cancel_left htext)
      rw [← heq] at hscalars'
      rw [arrayScalars_injective hscalars hscalars', ih h']

/-! ## Pieces of a name -/

/-- A label and the texts behind it, nothing if there is no text. -/
def labelled (label : List Char) (texts : List (Option (List Char))) : List (List Char) :=
  if texts.any Option.isSome then label :: positioned 0 texts else []

theorem eq_replicate_of_not_any {α : Type} {texts : List (Option α)}
    (h : ¬ texts.any Option.isSome = true) : texts = List.replicate texts.length none := by
  refine List.eq_replicate_of_mem fun o ho => ?_
  cases o with
  | none => rfl
  | some text => exact absurd (List.any_eq_true.mpr ⟨_, ho, rfl⟩) h

theorem labelled_injective {label : List Char} {texts' : List (Option (List Char))}
    (hlength : texts.length = texts'.length) (h : labelled label texts = labelled label texts') : texts = texts' := by
  unfold labelled at h
  split_ifs at h with hany hany' hany'
  · exact Lib.positioned_injective hlength (List.cons.inj h).2
  · rw [eq_replicate_of_not_any hany, eq_replicate_of_not_any hany', hlength]

theorem notMem_labelled {label : List Char} (hlabel : '$' ∉ label)
    (h : ∀ text, some text ∈ texts → '$' ∉ text) : ∀ piece ∈ labelled label texts, '$' ∉ piece := by
  intro piece hpiece
  unfold labelled at hpiece
  split_ifs at hpiece
  · rcases List.mem_cons.mp hpiece with rfl | hpiece
    · exact hlabel
    · obtain ⟨n, text, -, htext, rfl⟩ := Lib.exists_of_mem_positioned hpiece
      intro hmem
      rcases List.mem_append.mp hmem with hmem | hmem
      · exact Lib.notMem_decimal (by decide) n hmem
      · rcases List.mem_cons.mp hmem with heq | hmem
        · cases heq
        · exact h text htext hmem
  · cases hpiece

theorem notMem_joined_decimal (ns : List ℕ) : '$' ∉ joined '_' (ns.map decimal) := by
  induction ns with
  | nil => exact fun h => by cases h
  | cons n ns ih =>
    rw [List.map_cons, joined, List.mem_cons, not_or, List.mem_append, not_or]
    exact ⟨by decide, Lib.notMem_decimal (by decide) n, ih⟩

theorem notMem_shapeText (shape : List ℕ) : '$' ∉ shapeText shape := by
  cases shape with
  | nil => exact fun h => by cases h
  | cons d ds =>
    rw [shapeText, List.mem_append, not_or]
    exact ⟨Lib.notMem_decimal (by decide) d, notMem_joined_decimal ds⟩

theorem ValueTexts.notMem (h : ValueTexts shapes position values texts) : ∀ text, some text ∈ texts → '$' ∉ text := by
  induction h with
  | nil => exact fun _ h => by cases h
  | none _ ih =>
    intro text htext
    rcases List.mem_cons.mp htext with heq | htext
    · cases heq
    · exact ih text htext
  | @scalar position n _ _ _ ih =>
    intro text htext
    rcases List.mem_cons.mp htext with heq | htext
    · cases heq
      exact Lib.notMem_decimal (by decide) n
    · exact ih text htext
  | @array _ _ _ scalars _ _ _ _ _ ih =>
    intro text htext
    rcases List.mem_cons.mp htext with heq | htext
    · cases heq
      rw [List.mem_append, not_or]
      exact ⟨by decide, notMem_joined_decimal scalars⟩
    · exact ih text htext

/-- The pieces that stand for the shapes of a key. -/
def Specialization.arrayPieces (key : Specialization) : List (List Char) :=
  labelled "arrays".toList (key.shapes.map (Option.map shapeText))

theorem any_isSome_map {α β : Type} (f : α → β) (l : List (Option α)) :
    (l.map (Option.map f)).any Option.isSome = l.any Option.isSome := by
  induction l with
  | nil => rfl
  | cons o l ih => rw [List.map_cons, List.any_cons, List.any_cons, ih, Option.isSome_map]

theorem arraysSuffix_toList {key : Specialization} (h : ∀ shape, some shape ∈ key.shapes → shape ≠ []) :
    key.arraysSuffix.toList = joined '$' key.arrayPieces := by
  unfold Specialization.arraysSuffix Specialization.arrayPieces labelled
  rw [any_isSome_map]
  split_ifs
  · rw [String.toList_append, shapesSuffix_toList 0 h]
    rfl
  · rfl

theorem ValueTexts.any_isSome (h : ValueTexts shapes position values texts) :
    texts.any Option.isSome = values.any Option.isSome := by
  induction h with
  | nil => rfl
  | none _ ih => rw [List.any_cons, List.any_cons, ih]; rfl
  | scalar _ ih => rfl
  | array _ _ _ ih => rfl

theorem valueTexts_replicate (shapes : List (Option (List ℕ))) (position n : ℕ) :
    ValueTexts shapes position (List.replicate n none) (List.replicate n none) := by
  induction n generalizing position with
  | zero => exact .nil
  | succ n ih => exact .none (ih (position + 1))

theorem boundSuffix_toList {key : Specialization} {suffix : String} (h : key.boundSuffix = .ok suffix) :
    ∃ texts, ValueTexts key.shapes 0 key.values texts ∧
      suffix.toList = joined '$' (labelled "values".toList texts) := by
  unfold Specialization.boundSuffix at h
  split_ifs at h with hany
  · obtain ⟨rest, hrest, h⟩ := bind_eq_ok h
    obtain ⟨texts, htexts, hsuffix⟩ := valueTexts_of_suffix hrest
    cases h
    refine ⟨texts, htexts, ?_⟩
    rw [labelled, if_pos (htexts.any_isSome.trans hany), String.toList_append, hsuffix]
    rfl
  · cases h
    have htexts := valueTexts_replicate key.shapes 0 key.values.length
    rw [← eq_replicate_of_not_any hany] at htexts
    refine ⟨_, htexts, ?_⟩
    rw [labelled, if_neg (htexts.any_isSome ▸ hany)]
    rfl

/-! ## Reading a name back -/

/-- The second template is named like the first one with the shapes of its arrays appended, and its own
arguments have no shapes: nothing in their names tells the two specializations apart. -/
structure Clashes (key key' : Specialization) : Prop where
  id : key'.id = key.id ++ key.arraysSuffix
  arrays : key.shapes.any Option.isSome = true
  scalars : ¬ key'.shapes.any Option.isSome = true
  values : key'.boundSuffix = key.boundSuffix

/-- The name of a specialization that the pass may generate. -/
structure Nameable (originals : HashMap String TemplateData) (key : Specialization) (n : String) :
    Prop where
  original : key.id ∈ originals
  params : ∀ old, originals.lookup key.id = some old → old.nameOfParams.length = key.shapes.length
  values : key.values.length = key.shapes.length
  nonempty : ∀ shape, some shape ∈ key.shapes → shape ≠ []
  name : key.name = .ok n
  unused : n ≠ key.id → n ∉ originals

variable {originals : HashMap String TemplateData} {key key' : Specialization} {n : String}

/-- The texts of the bound values, and the name made of its pieces. -/
theorem Nameable.pieces (h : Nameable originals key n) :
    ∃ texts, ValueTexts key.shapes 0 key.values texts ∧
      key.boundSuffix = .ok (String.ofList (joined '$' (labelled "values".toList texts))) ∧
      n.toList = key.id.toList ++ joined '$' (key.arrayPieces ++ labelled "values".toList texts) := by
  obtain ⟨suffix, hsuffix, hname⟩ := bind_eq_ok h.name
  obtain ⟨texts, htexts, htoList⟩ := boundSuffix_toList hsuffix
  cases hname
  refine ⟨texts, htexts, ?_, ?_⟩
  · rw [hsuffix, ← htoList, String.ofList_toList]
  · rw [String.toList_append, String.toList_append, arraysSuffix_toList h.nonempty, htoList,
      Lib.joined_append, List.append_assoc]

theorem notMem_arrayPieces (key : Specialization) : ∀ piece ∈ key.arrayPieces, '$' ∉ piece := by
  refine notMem_labelled (by decide) fun text htext => ?_
  obtain ⟨o, -, ho⟩ := List.mem_map.mp htext
  obtain ⟨shape, -, rfl⟩ := Option.map_eq_some_iff.mp ho
  exact notMem_shapeText shape

theorem notMem_pieces (h : ValueTexts key.shapes 0 key.values texts) :
    ∀ piece ∈ key.arrayPieces ++ labelled "values".toList texts, '$' ∉ piece := by
  intro piece hpiece
  rcases List.mem_append.mp hpiece with hpiece | hpiece
  · exact notMem_arrayPieces key piece hpiece
  · exact notMem_labelled (by decide) h.notMem piece hpiece

theorem values_notMem_positioned (position : ℕ) (texts : List (Option (List Char))) :
    "values".toList ∉ positioned position texts := by
  intro hmem
  obtain ⟨c, hc, hdigit⟩ := Lib.beginsWithDigit_of_mem_positioned hmem
  cases hc
  cases hdigit

theorem arrays_notMem_positioned (position : ℕ) (texts : List (Option (List Char))) :
    "arrays".toList ∉ positioned position texts := by
  intro hmem
  obtain ⟨c, hc, hdigit⟩ := Lib.beginsWithDigit_of_mem_positioned hmem
  cases hc
  cases hdigit

theorem arrays_notMem_tail (key : Specialization) : "arrays".toList ∉ key.arrayPieces.tail := by
  unfold Specialization.arrayPieces labelled
  split_ifs
  · exact arrays_notMem_positioned _ _
  · exact fun h => by cases h

theorem ne_values_of_mem_arrayPieces : ∀ piece ∈ key.arrayPieces, piece ≠ "values".toList := by
  intro piece hpiece
  unfold Specialization.arrayPieces labelled at hpiece
  split_ifs at hpiece
  · rcases List.mem_cons.mp hpiece with rfl | hpiece
    · decide
    · rintro rfl
      exact values_notMem_positioned _ _ hpiece
  · cases hpiece

theorem head_values_labelled (texts : List (Option (List Char))) :
    ∀ piece ∈ (labelled "values".toList texts).head?, ¬ piece ≠ "values".toList := by
  intro piece hpiece
  unfold labelled at hpiece
  split_ifs at hpiece
  · cases hpiece
    exact fun h => h rfl
  · cases hpiece

/-- The label of the bound values occurs once: it is where the pieces of the arrays end. -/
theorem arrayPieces_of_append {texts' : List (Option (List Char))} {first : List (List Char)}
    (hany : texts'.any Option.isSome = true)
    (h : key.arrayPieces ++ labelled "values".toList texts = first ++ labelled "values".toList texts') :
    first = key.arrayPieces := by
  by_cases hmem : "values".toList ∈ first
  · obtain ⟨start, rest, rfl, hstart⟩ := List.eq_append_cons_of_mem hmem
    rw [List.append_assoc, List.cons_append] at h
    have hhead : ∀ piece ∈ ("values".toList :: (rest ++ labelled "values".toList texts')).head?,
        ¬ piece ≠ "values".toList := by
      intro piece hpiece
      cases hpiece
      exact fun h => h rfl
    obtain ⟨-, htexts⟩ := Lib.append_inj_of_kind ne_values_of_mem_arrayPieces
      (fun piece hpiece heq => hstart (heq ▸ hpiece)) (head_values_labelled texts) hhead h
    unfold labelled at htexts
    rw [if_pos hany] at htexts
    split_ifs at htexts
    refine absurd ?_ (values_notMem_positioned 0 texts)
    rw [(List.cons.inj htexts).2]
    exact List.mem_append_right _ List.mem_cons_self
  · exact (Lib.append_inj_of_kind ne_values_of_mem_arrayPieces
      (fun piece hpiece heq => hmem (heq ▸ hpiece)) (head_values_labelled texts)
      (head_values_labelled texts') h).1.symm

/-- A template whose name continues the name of another one has no specialization of the same name, unless the
two clash. -/
theorem eq_nil_of_continues (hclash : ¬ Clashes key key') (h : Nameable originals key n)
    (h' : Nameable originals key' n) {t : List Char} (hid : key'.id.toList = key.id.toList ++ t) :
    t = [] := by
  obtain ⟨texts, htexts, hbound, hname⟩ := h.pieces
  obtain ⟨texts', htexts', hbound', hname'⟩ := h'.pieces
  have hsuffix : joined '$' (key.arrayPieces ++ labelled "values".toList texts) =
      t ++ joined '$' (key'.arrayPieces ++ labelled "values".toList texts') := by
    rw [hname', hid, List.append_assoc] at hname
    exact (List.append_cancel_left hname).symm
  by_cases hnil : key'.arrayPieces ++ labelled "values".toList texts' = []
  · -- The name is the name of a template, so it is the template's own.
    rw [hnil] at hname'
    have hn : n = key'.id := String.toList_injective (by rw [hname', joined, List.append_nil])
    have hown : n = key.id := by
      by_contra hne
      exact h.unused hne (hn ▸ h'.original)
    have hlength := congrArg List.length hid
    rw [← hn, ← hown, List.length_append] at hlength
    exact List.length_eq_zero_iff.mp (by omega)
  · obtain ⟨first, hfirst, rfl⟩ := Lib.exists_of_joined_eq_append (notMem_pieces htexts)
      (notMem_pieces htexts') hnil hsuffix
    by_cases harrays : key'.arrayPieces = []
    · -- The pieces of the arrays are part of the longer name.
      rw [harrays, List.nil_append] at hfirst hnil
      have hany : texts'.any Option.isSome = true := by
        by_contra hany
        rw [labelled, if_neg hany] at hnil
        exact hnil rfl
      have heq := arrayPieces_of_append hany hfirst
      subst heq
      by_contra hne
      have hshapes : key.shapes.any Option.isSome = true := by
        by_contra hshapes
        rw [Specialization.arrayPieces, labelled, any_isSome_map, if_neg hshapes] at hne
        exact hne rfl
      have hid' : key'.id = key.id ++ key.arraysSuffix :=
        String.toList_injective (by rw [String.toList_append, arraysSuffix_toList h.nonempty, hid])
      have hscalars : ¬ key'.shapes.any Option.isSome = true := by
        intro hshapes'
        rw [Specialization.arrayPieces, labelled, any_isSome_map, if_pos hshapes'] at harrays
        cases harrays
      have hlabelled := List.append_cancel_left hfirst
      exact hclash ⟨hid', hshapes, hscalars, by rw [hbound, hbound', hlabelled]⟩
    · -- The label of the arrays occurs at the beginning only.
      obtain ⟨rest, hrest⟩ : ∃ rest, key'.arrayPieces = "arrays".toList :: rest := by
        unfold Specialization.arrayPieces labelled at harrays ⊢
        split_ifs at harrays ⊢
        · exact ⟨_, rfl⟩
        · exact absurd rfl harrays
      cases first with
      | nil => rfl
      | cons piece first =>
        exfalso
        rw [hrest] at hfirst
        have hmem : "arrays".toList ∈ (key.arrayPieces ++ labelled "values".toList texts).tail := by
          rw [hfirst]
          exact List.mem_append_right first List.mem_cons_self
        have hlabelled : "arrays".toList ∉ labelled "values".toList texts := by
          unfold labelled
          split_ifs
          · rw [List.mem_cons, not_or]
            exact ⟨by decide, arrays_notMem_positioned 0 texts⟩
          · exact fun h => by cases h
        cases harrayPieces : key.arrayPieces with
        | nil =>
          rw [harrayPieces, List.nil_append] at hmem
          exact hlabelled (List.mem_of_mem_tail hmem)
        | cons label pieces =>
          rw [harrayPieces, List.cons_append, List.tail_cons] at hmem
          rcases List.mem_append.mp hmem with hmem | hmem
          · have htail := arrays_notMem_tail key
            rw [harrayPieces] at htail
            exact htail hmem
          · exact hlabelled hmem

theorem shapes_injective {shapes' : List (Option (List ℕ))} (h : ∀ shape, some shape ∈ shapes → shape ≠ [])
    (h' : ∀ shape, some shape ∈ shapes' → shape ≠ [])
    (heq : shapes.map (Option.map shapeText) = shapes'.map (Option.map shapeText)) : shapes = shapes' := by
  induction shapes generalizing shapes' with
  | nil =>
    cases shapes' with
    | nil => rfl
    | cons o' shapes' => cases heq
  | cons o shapes ih =>
    cases shapes' with
    | nil => cases heq
    | cons o' shapes' =>
      obtain ⟨ho, hrest⟩ := List.cons.inj heq
      rw [ih (fun shape hshape => h shape (List.mem_cons_of_mem _ hshape))
        (fun shape hshape => h' shape (List.mem_cons_of_mem _ hshape)) hrest]
      cases o with
      | none =>
        cases o' with
        | none => rfl
        | some shape' => cases ho
      | some shape =>
        cases o' with
        | none => cases ho
        | some shape' =>
          rw [shapeText_injective (h shape List.mem_cons_self) (h' shape' List.mem_cons_self)
            (Option.some.inj ho)]

/-- Different keys that do not clash get different names. -/
theorem name_injective (hclash : ¬ Clashes key key') (hclash' : ¬ Clashes key' key)
    (h : Nameable originals key n) (h' : Nameable originals key' n) : key = key' := by
  obtain ⟨texts, htexts, -, hname⟩ := h.pieces
  obtain ⟨texts', htexts', -, hname'⟩ := h'.pieces
  have hids : key.id.toList = key'.id.toList := by
    rcases List.append_eq_append_iff.mp (hname.symm.trans hname') with ⟨t, hid, -⟩ | ⟨t, hid, -⟩
    · rw [hid, eq_nil_of_continues hclash h h' hid, List.append_nil]
    · rw [hid, eq_nil_of_continues hclash' h' h hid, List.append_nil]
  have hid := String.toList_injective hids
  rw [hname, hids] at hname'
  have hpieces := Lib.joined_injective (notMem_pieces htexts) (notMem_pieces htexts')
    (List.append_cancel_left hname')
  obtain ⟨harrays, hvalues⟩ := Lib.append_inj_of_kind ne_values_of_mem_arrayPieces
    ne_values_of_mem_arrayPieces (head_values_labelled texts) (head_values_labelled texts') hpieces
  obtain ⟨old, hold⟩ := AList.mem_iff_exists_lookup.mp h.original
  have hlength : key.shapes.length = key'.shapes.length := by
    rw [← h.params old hold, h'.params old (hid ▸ hold)]
  have hshapes : key.shapes = key'.shapes :=
    shapes_injective h.nonempty h'.nonempty
      (labelled_injective (by rw [List.length_map, List.length_map, hlength]) harrays)
  have hvalues' : key.values = key'.values := by
    have hlengths : texts.length = texts'.length := by
      rw [htexts.length_eq, htexts'.length_eq, h.values, h'.values, hlength]
    rw [← labelled_injective hlengths hvalues, ← hshapes] at htexts'
    exact htexts.injective htexts'
  cases key
  cases key'
  cases hid
  cases hshapes
  cases hvalues'
  rfl

/-- Keys that clash get one name. -/
theorem Clashes.name_eq (h : Clashes key key') : key'.name = key.name := by
  unfold Specialization.name
  have hsuffix : key'.arraysSuffix = "" := if_neg h.scalars
  rw [h.values, hsuffix, h.id, String.append_empty]

theorem Clashes.ne (h : Clashes key key') : key ≠ key' := by
  rintro rfl
  exact h.scalars h.arrays

/-- No template is named like another one with the shapes of some arguments appended. -/
def Separated (originals : HashMap String TemplateData) : Prop :=
  ∀ id ∈ originals, ∀ shapes : List (Option (List ℕ)), shapes.any Option.isSome = true →
    (∀ shape, some shape ∈ shapes → shape ≠ []) →
    id ++ ("$arrays" ++ shapesSuffix 0 shapes) ∉ originals

theorem Separated.not_clashes (hsep : Separated originals) {n' : String} (h : Nameable originals key n)
    (h' : Nameable originals key' n') : ¬ Clashes key key' := by
  intro hclash
  have hid := hclash.id
  rw [Specialization.arraysSuffix, if_pos hclash.arrays] at hid
  exact hsep key.id h.original key.shapes hclash.arrays h.nonempty (hid ▸ h'.original)

theorem separated_of_notMem (h : ∀ id ∈ originals, '$' ∉ id.toList) : Separated originals := by
  intro id _ shapes _ _ hmem
  refine h _ hmem ?_
  rw [String.toList_append, String.toList_append]
  exact List.mem_append_right _ (List.mem_append_left _ (by decide))

end Circom.LlzkBackend
