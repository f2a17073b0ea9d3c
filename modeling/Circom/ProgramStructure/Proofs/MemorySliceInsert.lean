import Circom.Lib.PartialFold
import Circom.ProgramStructure.Proofs.MemorySliceIndices

/-!
# Partial assignment of slices

`insert_values` writes new values of the right shape in one go. Values of another shape are split into
their rows, so that in the end every cell that the new values and the slice have in common is
written, and no other one.
-/

namespace Circom.ProgramStructure

open Circom.Lib (Within cellPosition cellPosition_lt cellPosition_append cellPosition_inj exists_mapM
  forall₂_of_mapM)

variable {dims : List ℕ} {e : MemoryError} {dim index : ℕ}

namespace MemorySlice

variable {C : Type}

/-- The value of the cell that an access of full length names. -/
def read (slice : MemorySlice C) (access : List ℕ) : Option C :=
  match slice.getInitialCell access with
  | .ok cell => slice.values[cell]?
  | .error _ => none

theorem read_of_within (slice : MemorySlice C) (hwf : slice.WellFormed) {t : List ℕ}
    (h : Within t slice.route) : slice.read t = slice.values[cellPosition slice.route t]? := by
  unfold read
  rw [getInitialCell_of_within hwf h]

/-! ## Checking the dimensions -/

theorem checkAccess_of_within {route access : List ℕ} (hlen : access.length ≤ route.length)
    (h : Within access (route.take access.length)) : checkAccess route access = .ok () := by
  induction access generalizing route with
  | nil => simp only [checkAccess]
  | cons index access ih =>
    cases route with
    | nil => simp at hlen
    | cons dim route =>
      rw [List.length_cons, List.take_succ_cons] at h
      obtain ⟨hi, hrest⟩ := List.forall₂_cons.mp h
      rw [checkAccess, if_neg (by omega)]
      exact ih (by simpa using hlen) hrest

theorem checkAccess_of_not_within {route access : List ℕ} (hlen : access.length ≤ route.length)
    (h : ¬ Within access (route.take access.length)) :
    checkAccess route access = .error .outOfBoundsError := by
  induction access generalizing route with
  | nil => exact absurd List.Forall₂.nil h
  | cons index access ih =>
    cases route with
    | nil => rfl
    | cons dim route =>
      rw [checkAccess]
      split_ifs with hi
      · rfl
      · refine ih (by simpa using hlen) fun hrest => h ?_
        rw [List.length_cons, List.take_succ_cons]
        exact List.Forall₂.cons (by omega) hrest

theorem checkDims_self (isStrict : Bool) (route : List ℕ) : checkDims isStrict route route = .ok () := by
  induction route with
  | nil => rfl
  | cons dim route ih => rw [checkDims, if_neg (Nat.lt_irrefl dim), if_neg (Nat.lt_irrefl dim), ih]

/-- Routes of one length that differ are a weak mismatch for variables. -/
theorem checkDims_of_ne {newRoute route : List ℕ} (hlen : newRoute.length = route.length)
    (hne : newRoute ≠ route) :
    ∃ given original, checkDims false newRoute route =
      .error (.mismatchedDimensionsWeak given original) := by
  induction newRoute generalizing route with
  | nil => exact absurd (List.length_eq_zero_iff.mp hlen.symm).symm hne
  | cons new newRoute ih =>
    cases route with
    | nil => simp at hlen
    | cons dim route =>
      simp only [checkDims, Bool.false_eq_true, if_false]
      split_ifs with hlt hgt
      · exact ⟨new, dim, rfl⟩
      · exact ⟨new, dim, rfl⟩
      · obtain rfl : new = dim := by omega
        exact ih (by simpa using hlen) fun h => hne (by rw [h])

/-- A strict check never reports a weak mismatch. -/
theorem checkDims_strict {newRoute route : List ℕ} (h : checkDims true newRoute route = .error e) (given original : ℕ) :
    e ≠ .mismatchedDimensionsWeak given original := by
  induction newRoute generalizing route with
  | nil => cases h
  | cons new newRoute ih =>
    cases route with
    | nil => cases h; nofun
    | cons dim route =>
      simp only [checkDims, if_true] at h
      split_ifs at h
      · cases h; nofun
      · cases h; nofun
      · exact ih h

theorem checkAccess_error {route access : List ℕ}
    (h : checkAccess route access = .error e) : e = .outOfBoundsError := by
  induction access generalizing route with
  | nil => simp only [checkAccess, reduceCtorEq] at h
  | cons index access ih =>
    cases route with
    | nil => cases h; rfl
    | cons dim route =>
      rw [checkAccess] at h
      split_ifs at h
      · cases h; rfl
      · exact ih h

theorem checkCorrectDims_strict {slice new : MemorySlice C} {access : List ℕ}
    (h : checkCorrectDims slice access new true = .error e) (given original : ℕ) :
    e ≠ .mismatchedDimensionsWeak given original := by
  unfold checkCorrectDims at h
  split_ifs at h
  · cases h; nofun
  · cases hc : checkAccess slice.route access with
    | error e' =>
      rw [hc] at h
      cases h
      rw [checkAccess_error hc]
      nofun
    | ok _ =>
      rw [hc] at h
      exact checkDims_strict h given original

/-- What the check says about new values with one dimension for each one below the access. -/
theorem checkCorrectDims_cases {slice new : MemorySlice C} {access : List ℕ}
    (hrank : access.length + new.route.length = slice.route.length) :
    (¬ slice.Accesses access ∧
      checkCorrectDims slice access new false = .error .outOfBoundsError) ∨
    (slice.Accesses access ∧ new.route = slice.route.drop access.length ∧
      checkCorrectDims slice access new false = .ok ()) ∨
    (slice.Accesses access ∧ new.route ≠ slice.route.drop access.length ∧
      ∃ given original, checkCorrectDims slice access new false =
        .error (.mismatchedDimensionsWeak given original)) := by
  have hlen : access.length ≤ slice.route.length := by omega
  have hcheck : checkCorrectDims slice access new false =
      (do checkAccess slice.route access
          checkDims false new.route (slice.route.drop access.length)) := by
    unfold checkCorrectDims
    exact if_neg (by omega)
  rw [hcheck]
  by_cases hin : Within access (slice.route.take access.length)
  · rw [checkAccess_of_within hlen hin]
    by_cases hroute : new.route = slice.route.drop access.length
    · refine Or.inr (Or.inl ⟨⟨hlen, hin⟩, hroute, ?_⟩)
      rw [← hroute]
      exact checkDims_self false new.route
    · refine Or.inr (Or.inr ⟨⟨hlen, hin⟩, hroute, ?_⟩)
      refine checkDims_of_ne ?_ hroute
      rw [List.length_drop]
      omega
  · rw [checkAccess_of_not_within hlen hin]
    exact Or.inl ⟨fun h => hin h.2, rfl⟩

/-! ## Writing and reading blocks -/

theorem writeCells_spec (values new : List C) (cell : ℕ) (h : cell + new.length ≤ values.length) :
    ∃ values', writeCells values cell new = some values' ∧ values'.length = values.length ∧
      ∀ i, values'[i]? = if cell ≤ i ∧ i < cell + new.length then new[i - cell]? else values[i]? := by
  induction new generalizing values cell with
  | nil =>
    refine ⟨values, rfl, rfl, fun i => ?_⟩
    rw [if_neg]
    simp only [List.length_nil]
    omega
  | cons v new ih =>
    rw [List.length_cons] at h
    obtain ⟨values', hwrite, hlen, hread⟩ := ih (values.set cell v) (cell + 1)
      (by rw [List.length_set]; omega)
    refine ⟨values', ?_, by rw [hlen, List.length_set], fun i => ?_⟩
    · rw [writeCells, if_pos (by omega)]
      exact hwrite
    · rw [hread, List.length_cons]
      rcases Nat.lt_trichotomy i cell with hi | rfl | hi
      · rw [if_neg (by omega), if_neg (by omega), List.getElem?_set_ne (by omega)]
      · rw [if_neg (by omega), if_pos (by omega), List.getElem?_set_self (by omega), Nat.sub_self]
        rfl
      · have hsub : i - cell = (i - (cell + 1)) + 1 := by omega
        by_cases hin : i < cell + 1 + new.length
        · rw [if_pos (by omega), if_pos (by omega), hsub, List.getElem?_cons_succ]
        · rw [if_neg (by omega), if_neg (by omega), List.getElem?_set_ne (by omega)]

/-- The copy of a row of a well-formed slice. -/
theorem accessValues_row {new : MemorySlice C} (hwf : new.WellFormed) (hroute : new.route = dim :: dims)
    (hi : index < dim) :
    ∃ row, new.accessValues [index] = some (.ok row) ∧ row.WellFormed ∧ row.route = dims ∧
      ∀ j, Within j dims → row.read j = new.read (index :: j) := by
  have hlen : new.values.length = dim * dims.prod := by
    rw [hwf, hroute, List.prod_cons]
  have hacc : new.Accesses [index] := by
    refine ⟨by simp [hroute], ?_⟩
    rw [hroute]
    exact List.Forall₂.cons hi List.Forall₂.nil
  have hcell : new.getInitialCell [index] = .ok (index * dims.prod) := by
    rw [getInitialCell_of_accesses hwf hacc, hroute]
    simp [cellPosition]
  have hblock : (index + 1) * dims.prod ≤ dim * dims.prod := Nat.mul_le_mul_right _ hi
  rw [Nat.add_mul, Nat.one_mul] at hblock
  obtain ⟨values, hvalues, hrow⟩ := exists_mapM (l := List.range dims.prod)
    (f := fun offset => new.values[index * dims.prod + offset]?)
    (P := fun offset v => new.values[index * dims.prod + offset]? = some v) (by
      intro offset hoffset
      rw [List.mem_range] at hoffset
      exact ⟨_, List.getElem?_eq_getElem (by omega), List.getElem?_eq_getElem (by omega)⟩)
  have hvlen : values.length = dims.prod := by rw [← hrow.length_eq, List.length_range]
  have hsize : generateNewRouteFromAccess new [index] = .ok (dims, dims.prod) := by
    unfold generateNewRouteFromAccess
    rw [if_neg (by simp [hroute]), hroute]
    simp [Lib.foldl_mul_dims]
  refine ⟨⟨dims, values⟩, ?_, hvlen, rfl, fun j hj => ?_⟩
  · rw [accessValues, generateSliceFromAccess, if_neg (by simp), hsize]
    simp only [hcell, hvalues, Option.bind_eq_bind, Option.bind_some]
  · have hjlt := cellPosition_lt hj
    have hnew : Within (index :: j) new.route := by
      rw [hroute]
      exact List.Forall₂.cons hi hj
    rw [read_of_within ⟨dims, values⟩ hvlen hj, read_of_within new hwf hnew, hroute, cellPosition]
    have hget := List.forall₂_iff_get.mp hrow
    have hrange : cellPosition dims j < (List.range dims.prod).length := by
      rwa [List.length_range]
    have hj' := hget.2 (cellPosition dims j) hrange (by rwa [hvlen])
    simp only [List.get_eq_getElem, List.getElem_range] at hj'
    rw [hj']
    exact List.getElem?_eq_getElem _

/-! ## The cells after an insertion -/

/-- The new values have been copied to the cells that they and the slice have in common below the
access; all other cells are as before. -/
structure Inserted (slice slice' : MemorySlice C) (access : List ℕ) (new : MemorySlice C) : Prop where
  route : slice'.route = slice.route
  wellFormed : slice'.WellFormed
  read : ∀ a j, a.length = access.length → Within (a ++ j) slice.route →
    (a = access → Within j new.route → slice'.read (a ++ j) = new.read j) ∧
    (¬ (a = access ∧ Within j new.route) → slice'.read (a ++ j) = slice.read (a ++ j))

/-- Outside the slice there is nothing to copy. -/
theorem Inserted.of_not_accesses {slice new : MemorySlice C} (hwf : slice.WellFormed)
    {access : List ℕ} (h : ¬ slice.Accesses access) : Inserted slice slice access new := by
  refine ⟨rfl, hwf, fun a j _ hwithin => ⟨?_, fun _ => rfl⟩⟩
  rintro rfl -
  have hlen := hwithin.length_eq
  rw [List.length_append] at hlen
  refine absurd ⟨by omega, ?_⟩ h
  have hsplit := (hwithin.split a.length).1
  rwa [List.take_left] at hsplit

/-- Values of the right shape fill the cells below the access. -/
theorem insert_block {slice new : MemorySlice C} (hwf : slice.WellFormed) (hnew : new.WellFormed)
    {access : List ℕ} (hacc : slice.Accesses access)
    (hroute : new.route = slice.route.drop access.length) :
    ∃ cell values, slice.getInitialCell access = .ok cell ∧
      writeCells slice.values cell new.values = some values ∧
      Inserted slice { slice with values } access new := by
  set outer := slice.route.take access.length with houter
  have hlen : new.values.length = new.route.prod := hnew
  have hsplit : slice.route = outer ++ new.route := by rw [hroute, houter, List.take_append_drop]
  have hcell := getInitialCell_of_accesses hwf hacc
  rw [← houter, ← hroute] at hcell
  have hcells : slice.values.length = outer.prod * new.route.prod := by
    rw [hwf, hsplit, List.prod_append]
  have hblock : (cellPosition outer access + 1) * new.route.prod ≤ outer.prod * new.route.prod :=
    Nat.mul_le_mul_right _ (cellPosition_lt hacc.2)
  rw [Nat.add_mul, Nat.one_mul] at hblock
  obtain ⟨values, hwrite, hvlen, hread⟩ := writeCells_spec slice.values new.values
    (cellPosition outer access * new.route.prod) (by omega)
  refine ⟨_, values, hcell, hwrite, ⟨rfl, hvlen.trans hwf, fun a j ha hwithin => ?_⟩⟩
  have houterlen : outer.length = access.length := hacc.2.length_eq.symm
  have ha' : Within a outer := by
    have h1 := (hwithin.split a.length).1
    rwa [List.take_left, ha, ← houter] at h1
  have hj : Within j new.route := by
    have h1 := (hwithin.split a.length).2
    rwa [List.drop_left, ha, ← hroute] at h1
  have hjlt := cellPosition_lt hj
  have hpos : cellPosition slice.route (a ++ j) =
      cellPosition outer a * new.route.prod + cellPosition new.route j := by
    rw [hsplit]
    exact cellPosition_append ha' j new.route
  rw [read_of_within ⟨slice.route, values⟩ (hvlen.trans hwf) hwithin,
    read_of_within slice hwf hwithin]
  simp only
  rw [hpos, hread]
  constructor
  · rintro rfl -
    rw [if_pos ⟨by omega, by omega⟩, read_of_within new hnew hj, Nat.add_sub_cancel_left]
  · intro hnot
    have hne : cellPosition outer a ≠ cellPosition outer access := fun h =>
      hnot ⟨cellPosition_inj ha' hacc.2 h, hj⟩
    rw [if_neg]
    rintro ⟨hle, hlt⟩
    rcases Nat.lt_or_gt_of_ne hne with h | h
    · have h1 : (cellPosition outer a + 1) * new.route.prod ≤
          cellPosition outer access * new.route.prod := Nat.mul_le_mul_right _ h
      rw [Nat.add_mul, Nat.one_mul] at h1
      omega
    · have h1 : (cellPosition outer access + 1) * new.route.prod ≤
          cellPosition outer a * new.route.prod := Nat.mul_le_mul_right _ h
      rw [Nat.add_mul, Nat.one_mul] at h1
      omega

/-! ## Rows -/

/-- The rows with the given outer indices have been copied. -/
structure InsertedRows (slice slice' : MemorySlice C) (access : List ℕ) (new : MemorySlice C)
    (indices : List ℕ) : Prop where
  route : slice'.route = slice.route
  wellFormed : slice'.WellFormed
  read : ∀ a i j, a.length = access.length → Within (a ++ i :: j) slice.route →
    (a = access → i ∈ indices → Within (i :: j) new.route →
      slice'.read (a ++ i :: j) = new.read (i :: j)) ∧
    (¬ (a = access ∧ i ∈ indices ∧ Within (i :: j) new.route) →
      slice'.read (a ++ i :: j) = slice.read (a ++ i :: j))

/-- The loop over the rows, given what the insertion of one row does. -/
theorem insertRows_spec {new : MemorySlice C} (hnew : new.WellFormed) (hroute : new.route = dim :: dims)
    (access route : List ℕ) (insertRow : MemorySlice C → ℕ → MemorySlice C → Option (MemorySlice C))
    (hrow : ∀ slice : MemorySlice C, slice.WellFormed → slice.route = route → ∀ index row, row.WellFormed → row.route = dims → ∃ slice', insertRow slice index row = some slice' ∧ Inserted slice slice' (access ++ [index]) row)
    (indices : List ℕ) (hindices : ∀ i ∈ indices, i < dim) {slice : MemorySlice C} (hwf : slice.WellFormed)
    (hslice : slice.route = route) :
    ∃ slice', insertRows insertRow new slice indices = some (slice', .ok ()) ∧
      InsertedRows slice slice' access new indices := by
  induction indices generalizing slice with
  | nil =>
    refine ⟨slice, rfl, rfl, hwf, fun a i j _ _ => ⟨fun _ hi => absurd hi List.not_mem_nil, fun _ => rfl⟩⟩
  | cons index indices ih =>
    obtain ⟨row, haccess, hrowwf, hrowroute, hrowread⟩ :=
      accessValues_row hnew hroute (hindices index List.mem_cons_self)
    obtain ⟨slice₁, hinsert, hone⟩ := hrow slice hwf hslice index row hrowwf hrowroute
    obtain ⟨slice', hloop, hrest⟩ := ih (fun i hi => hindices i (List.mem_cons_of_mem index hi))
      hone.wellFormed (hone.route.trans hslice)
    refine ⟨slice', ?_, hrest.route.trans hone.route, hrest.wellFormed,
      fun a i j ha hwithin => ?_⟩
    · rw [insertRows, haccess]
      simp only [Option.bind_eq_bind, Option.bind_some, hinsert]
      exact hloop
    have hwithin₁ : Within (a ++ i :: j) slice₁.route := by rwa [hone.route]
    have hassoc : a ++ i :: j = (a ++ [i]) ++ j := by rw [List.append_assoc, List.singleton_append]
    obtain ⟨hcopied, hkept⟩ := hrest.read a i j ha hwithin₁
    obtain ⟨hcopied₁, hkept₁⟩ := hone.read (a ++ [i]) j (by simp [ha]) (by rwa [← hassoc])
    rw [← hassoc] at hcopied₁ hkept₁
    have hrowwithin : Within (i :: j) new.route ↔ i < dim ∧ Within j dims := by
      rw [hroute]
      exact List.forall₂_cons
    by_cases hmem : a = access ∧ i ∈ indices ∧ Within (i :: j) new.route
    · have hvalue := hcopied hmem.1 hmem.2.1 hmem.2.2
      refine ⟨fun _ _ _ => hvalue, fun hnot => absurd ⟨hmem.1, ?_, hmem.2.2⟩ hnot⟩
      exact List.mem_cons_of_mem index hmem.2.1
    · rw [hkept hmem]
      constructor
      · rintro rfl hi hij
        have hi' : i = index := by
          rcases List.mem_cons.mp hi with h | h
          · exact h
          · exact absurd ⟨rfl, h, hij⟩ hmem
        subst hi'
        have hj := (hrowwithin.mp hij).2
        rw [hcopied₁ rfl (by rwa [hrowroute]), hrowread j hj]
      · intro hnot
        apply hkept₁
        rintro ⟨heq, hj⟩
        obtain ⟨rfl, hi⟩ := List.append_inj' heq rfl
        rw [List.cons.injEq] at hi
        obtain ⟨rfl, -⟩ := hi
        rw [hrowroute] at hj
        refine hnot ⟨rfl, List.mem_cons_self, hrowwithin.mpr ⟨?_, hj⟩⟩
        exact hindices i List.mem_cons_self

/-! ## The whole insertion -/

theorem insertValuesUpTo_not_accesses {slice new : MemorySlice C} {access : List ℕ}
    (hcheck : checkCorrectDims slice access new false = .error .outOfBoundsError) (depth : ℕ) :
    insertValuesUpTo false depth slice access new = some (slice, .error .outOfBoundsError) := by
  unfold insertValuesUpTo
  rw [hcheck]

theorem insertValuesUpTo_block {slice new : MemorySlice C} (hwf : slice.WellFormed)
    (hnew : new.WellFormed) {access : List ℕ} (hacc : slice.Accesses access)
    (hroute : new.route = slice.route.drop access.length)
    (hcheck : checkCorrectDims slice access new false = .ok ()) (depth : ℕ) :
    ∃ slice', insertValuesUpTo false depth slice access new = some (slice', .ok ()) ∧
      Inserted slice slice' access new := by
  obtain ⟨cell, values, hcell, hwrite, hins⟩ := insert_block hwf hnew hacc hroute
  refine ⟨_, ?_, hins⟩
  unfold insertValuesUpTo
  rw [hcheck]
  simp only [hcell, hwrite, Option.bind_eq_bind, Option.bind_some]

/-- A mismatch needs a dimension of the new values. -/
theorem exists_cons_of_mismatch {slice new : MemorySlice C} {access : List ℕ}
    (hrank : access.length + new.route.length = slice.route.length)
    (hne : new.route ≠ slice.route.drop access.length) : ∃ dim dims, new.route = dim :: dims := by
  refine List.exists_cons_of_ne_nil fun hnil => hne ?_
  rw [hnil, List.length_nil] at hrank
  rw [hnil, eq_comm, List.drop_eq_nil_iff]
  omega

/-- By induction on the number of dimensions of the new values, the rows having one less. -/
theorem insertValuesUpTo_spec {depth : ℕ} {slice new : MemorySlice C} (hwf : slice.WellFormed)
    (hnew : new.WellFormed) (access : List ℕ) (hdepth : new.route.length ≤ depth)
    (hrank : access.length + new.route.length = slice.route.length) :
    ∃ slice' result, insertValuesUpTo false depth slice access new = some (slice', result) ∧
      Inserted slice slice' access new ∧
      ((result = .ok () ∨ ∃ given original,
        result = .error (.mismatchedDimensionsWeak given original)) → slice.Accesses access) := by
  induction depth generalizing slice new access with
  | zero =>
    rcases checkCorrectDims_cases hrank with ⟨hacc, hcheck⟩ | ⟨hacc, hroute, hcheck⟩ | ⟨-, hne, -⟩
    · refine ⟨slice, _, insertValuesUpTo_not_accesses hcheck 0, Inserted.of_not_accesses hwf hacc, ?_⟩
      rintro (h | ⟨_, _, h⟩) <;> cases h
    · obtain ⟨slice', hrun, hins⟩ := insertValuesUpTo_block hwf hnew hacc hroute hcheck 0
      exact ⟨slice', .ok (), hrun, hins, fun _ => hacc⟩
    · obtain ⟨dim, dims, hcons⟩ := exists_cons_of_mismatch hrank hne
      rw [hcons] at hdepth
      cases hdepth
  | succ depth ih =>
    rcases checkCorrectDims_cases hrank with ⟨hacc, hcheck⟩ | ⟨hacc, hroute, hcheck⟩ |
      ⟨hacc, hne, given, original, hcheck⟩
    · refine ⟨slice, _, insertValuesUpTo_not_accesses hcheck (depth + 1),
        Inserted.of_not_accesses hwf hacc, ?_⟩
      rintro (h | ⟨_, _, h⟩) <;> cases h
    · obtain ⟨slice', hrun, hins⟩ := insertValuesUpTo_block hwf hnew hacc hroute hcheck (depth + 1)
      exact ⟨slice', .ok (), hrun, hins, fun _ => hacc⟩
    · obtain ⟨dim, dims, hcons⟩ := exists_cons_of_mismatch hrank hne
      rw [hcons, List.length_cons] at hdepth hrank
      obtain ⟨slice', hloop, hrows⟩ := insertRows_spec hnew hcons access slice.route
        (fun slice index row =>
          (insertValuesUpTo false depth slice (access ++ [index]) row).map Prod.fst)
        (fun slice₁ hwf₁ hroute₁ index row hrow hrowroute => by
          obtain ⟨slice₂, result, hins, hspec, -⟩ := ih hwf₁ hrow (access ++ [index])
            (by rw [hrowroute]; omega)
            (by rw [hrowroute, hroute₁, List.length_append, List.length_singleton]; omega)
          exact ⟨slice₂, by rw [hins]; rfl, hspec⟩)
        (List.range dim) (fun i hi => List.mem_range.mp hi) hwf rfl
      refine ⟨slice', .error (.mismatchedDimensionsWeak given original), ?_,
        ⟨hrows.route, hrows.wellFormed, fun a t ha hwithin => ?_⟩, fun _ => hacc⟩
      · rw [insertValuesUpTo, hcheck, hcons]
        simp only [List.head?_cons, Option.bind_eq_bind, Option.bind_some, hloop]
      · obtain ⟨i, j, rfl⟩ : ∃ i j, t = i :: j := by
          have hlen := hwithin.length_eq
          rw [List.length_append] at hlen
          exact List.exists_cons_of_ne_nil (by rintro rfl; rw [List.length_nil] at hlen; omega)
        obtain ⟨hcopied, hkept⟩ := hrows.read a i j ha hwithin
        have hrange : Within (i :: j) new.route → i ∈ List.range dim := by
          rw [hcons]
          intro h
          exact List.mem_range.mpr (List.forall₂_cons.mp h).1
        exact ⟨fun h hij => hcopied h (hrange hij) hij,
          fun hnot => hkept fun h => hnot ⟨h.1, h.2.2⟩⟩

/-- Taking a row of a well-formed slice never ends the loop. -/
theorem insertRows_result {new : MemorySlice C} (hnew : new.WellFormed) (hroute : new.route = dim :: dims)
    {insertRow : MemorySlice C → ℕ → MemorySlice C → Option (MemorySlice C)} {indices : List ℕ}
    (hindices : ∀ i ∈ indices, i < dim) {slice slice' : MemorySlice C} {result : Except MemoryError Unit}
    (h : insertRows insertRow new slice indices = some (slice', result)) : result = .ok () := by
  induction indices generalizing slice with
  | nil =>
    cases h
    rfl
  | cons index indices ih =>
    obtain ⟨row, haccess, -⟩ := accessValues_row hnew hroute (hindices index List.mem_cons_self)
    rw [insertRows, haccess] at h
    simp only [Option.bind_eq_bind, Option.bind_some] at h
    obtain ⟨slice₁, -, hloop⟩ := Option.bind_eq_some_iff.mp h
    exact ih (fun i hi => hindices i (List.mem_cons_of_mem index hi)) hloop

/-- An error that is not a weak mismatch, or any error of a strict insertion, leaves the slice alone. -/
theorem insertValuesUpTo_error {isStrict : Bool} {depth : ℕ} {slice slice' new : MemorySlice C} (hnew : new.WellFormed)
    {access : List ℕ} (h : insertValuesUpTo isStrict depth slice access new = some (slice', .error e))
    (he : isStrict = true ∨ ∀ given original, e ≠ .mismatchedDimensionsWeak given original) : slice' = slice := by
  unfold insertValuesUpTo at h
  cases hcheck : checkCorrectDims slice access new isStrict with
  | ok u =>
    rw [hcheck] at h
    cases hcell : getInitialCell slice access with
    | error e' =>
      simp only [hcell, Option.some.injEq, Prod.mk.injEq] at h
      exact h.1.symm
    | ok cell =>
      simp only [hcell, Option.bind_eq_bind] at h
      obtain ⟨values, -, hresult⟩ := Option.bind_eq_some_iff.mp h
      cases hresult
  | error e' =>
    rw [hcheck] at h
    cases e' with
    | outOfBoundsError =>
      cases h
      rfl
    | mismatchedDimensions given original =>
      cases h
      rfl
    | mismatchedDimensionsWeak given original =>
      have hweak : isStrict = false := by
        cases isStrict with
        | false => rfl
        | true => exact absurd rfl (checkCorrectDims_strict hcheck given original)
      have he' := he.resolve_left (by rw [hweak]; exact Bool.false_ne_true)
      cases depth with
      | zero => cases h
      | succ depth =>
        cases hroute : new.route with
        | nil =>
          rw [hroute] at h
          cases h
        | cons dim dims =>
          rw [hroute] at h
          simp only [List.head?_cons, Option.bind_eq_bind, Option.bind_some] at h
          obtain ⟨⟨slice₁, result⟩, hloop, hend⟩ := Option.bind_eq_some_iff.mp h
          have hok := insertRows_result hnew hroute (fun i hi => List.mem_range.mp hi) hloop
          subst hok
          simp only [Option.some.injEq, Prod.mk.injEq, Except.error.injEq] at hend
          exact absurd hend.2.symm (he' given original)

/-- What a partial assignment does to the cells of the slice. -/
structure CopiesOverlap (slice slice' : MemorySlice C) (access : List ℕ) (new : MemorySlice C) :
    Prop where
  route : slice'.route = slice.route
  numberOfCells : slice'.getNumberOfCells = slice.getNumberOfCells
  /-- A cell of the new slice that is one of the old slice too is copied. -/
  overlap : ∀ j, Within j new.route → Within j (slice.route.drop access.length) →
    ∃ value, new.read j = some value ∧ slice'.read (access ++ j) = some value
  /-- All other cells are left as they are. -/
  frame : ∀ t, Within t slice.route → (∀ j, t = access ++ j → ¬ Within j new.route) →
    slice'.read t = slice.read t

theorem Inserted.copiesOverlap {slice slice' new : MemorySlice C} {access : List ℕ}
    (hwf : slice.WellFormed) (hnew : new.WellFormed) (hacc : slice.Accesses access)
    (h : Inserted slice slice' access new) : CopiesOverlap slice slice' access new := by
  constructor
  case route => exact h.route
  case numberOfCells =>
    have h1 : slice'.getNumberOfCells = slice'.route.prod := h.wellFormed
    have h2 : slice.getNumberOfCells = slice.route.prod := hwf
    rw [h1, h2, h.route]
  case overlap =>
    intro j hj hj'
    have hwithin : Within (access ++ j) slice.route := by
      have happ := hacc.2.append hj'
      rwa [List.take_append_drop] at happ
    rw [(h.read access j rfl hwithin).1 rfl hj, read_of_within new hnew hj]
    have hlt : cellPosition new.route j < new.values.length := by
      rw [hnew]
      exact cellPosition_lt hj
    exact ⟨_, List.getElem?_eq_getElem hlt, List.getElem?_eq_getElem hlt⟩
  case frame =>
    intro t ht hnot
    have hlen : (t.take access.length).length = access.length := by
      have := ht.length_eq
      have := hacc.1
      rw [List.length_take]
      omega
    have ht' : t.take access.length ++ t.drop access.length = t := List.take_append_drop _ _
    have hkept := (h.read (t.take access.length) (t.drop access.length) hlen (by rwa [ht'])).2
    rw [ht'] at hkept
    refine hkept fun ⟨ha, hj⟩ => hnot (t.drop access.length) ?_ hj
    rw [ha] at ht'
    exact ht'.symm

/-- An insertion of values with at least the dimensions that are left below the access never panics,
and copies exactly the overlap when it succeeds or reports a weak mismatch. Otherwise no cell
changes. -/
theorem insertValues_copiesOverlap {slice new : MemorySlice C} (hwf : slice.WellFormed)
    (hnew : new.WellFormed) (access : List ℕ) :
    (slice.route.length ≤ access.length + new.route.length →
      ∃ slice' result, insertValues slice access new false = some (slice', result) ∧
        ((result = .ok () ∨ ∃ given original,
          result = .error (.mismatchedDimensionsWeak given original)) →
            CopiesOverlap slice slice' access new)) ∧
    ∀ isStrict slice' e, insertValues slice access new isStrict = some (slice', .error e) →
      (isStrict = true ∨ ∀ given original, e ≠ .mismatchedDimensionsWeak given original) →
        slice' = slice := by
  refine ⟨fun hrank => ?_, fun isStrict slice' e h he => insertValuesUpTo_error hnew h he⟩
  by_cases heq : access.length + new.route.length = slice.route.length
  · obtain ⟨slice', result, hins, hspec, hacc⟩ :=
      insertValuesUpTo_spec hwf hnew access (le_refl new.route.length) heq
    exact ⟨slice', result, hins, fun h => hspec.copiesOverlap hwf hnew (hacc h)⟩
  · have hcheck : checkCorrectDims slice access new false = .error .outOfBoundsError :=
      if_pos (by omega)
    refine ⟨slice, .error .outOfBoundsError, insertValuesUpTo_not_accesses hcheck _, ?_⟩
    rintro (h | ⟨_, _, h⟩) <;> cases h

/-- Two rows of length one go into the first column of a `2 × 2` array, a third one is dropped. -/
theorem insertValues_copiesOverlap_matrix :
    ∃ slice' result, insertValues (⟨[2, 2], [0, 0, 0, 0]⟩ : MemorySlice ℕ) [] ⟨[3, 1], [5, 6, 7]⟩
        false = some (slice', result) ∧
      ((result = .ok () ∨ ∃ given original,
        result = .error (.mismatchedDimensionsWeak given original)) →
          CopiesOverlap ⟨[2, 2], [0, 0, 0, 0]⟩ slice' [] ⟨[3, 1], [5, 6, 7]⟩) :=
  (insertValues_copiesOverlap (by decide) (by decide) []).1 (by decide)

/-- A vector assigned to a matrix fills the first row: cell `[0, 1]` changes. -/
theorem not_insertValues_copiesOverlap :
    ¬ ∀ (slice new : MemorySlice ℕ) (access : List ℕ), slice.WellFormed → new.WellFormed →
      ∀ slice' result, insertValues slice access new false = some (slice', result) →
        (result = .ok () ∨ ∃ given original,
          result = .error (.mismatchedDimensionsWeak given original)) →
            CopiesOverlap slice slice' access new := by
  intro h
  have hrun := h ⟨[2, 2], [0, 0, 0, 0]⟩ ⟨[2], [5, 7]⟩ [] (by decide) (by decide)
    ⟨[2, 2], [5, 7, 0, 0]⟩ (.ok ()) (by decide) (Or.inl rfl)
  have hcell := hrun.frame [0, 1] (by decide) fun j hj hwithin => by
    have hlen := hwithin.length_eq
    rw [List.nil_append] at hj
    subst hj
    cases hlen
  revert hcell
  decide

end MemorySlice

end Circom.ProgramStructure
