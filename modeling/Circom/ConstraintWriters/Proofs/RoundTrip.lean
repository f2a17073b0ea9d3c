import Circom.Algebra.Proofs.ModularArithmetic
import Circom.ConstraintWriters.Proofs.Reader
import Circom.ConstraintWriters.Proofs.Writer

/-!
# R1CS files round trip

What `port_r1cs` writes is what `read_r1cs` returns.
-/

namespace Circom.ConstraintWriters

open Circom.Algebra.ModularArithmetic (InField)
open Circom.Lib (HashMap Read Reads bind_of_ok encodeLe readExact readTimes reads_readExact reads_readTimes)
open Circom.Lib.ByteWriter (maxSize)

/-! ## What fits into a file -/

/-- Identifiers of wires are numbers of 32 bits, coefficients are elements of the field. -/
def ConstraintInRange (field : ℤ) (c : Constraint) : Prop :=
  c.len < 2 ^ 32 ∧ ∀ e ∈ c.pairs, e.1 < 2 ^ 32 ∧ InField field e.2

/-- Every number is smaller than the bytes it gets can tell, and the counts are those of the lists. -/
structure R1CSContent.WellFormed (content : R1CSContent) : Prop where
  field_pos : 0 < content.headerData.field
  fieldSize_lt : content.fieldSize < 2 ^ 32
  fields_lt : ∀ d ∈ content.headerData.dataStream, d.1 < 256 ^ d.2
  noConstraints : content.headerData.numberOfConstraints = content.constraints.length
  noWires : content.headerData.totalWires = content.wires.length
  constraints : ∀ c ∈ content.constraints, ConstraintInRange content.headerData.field c.1 ∧
    ConstraintInRange content.headerData.field c.2.1 ∧
    ConstraintInRange content.headerData.field c.2.2
  wires : ∀ wire ∈ content.wires, wire < 2 ^ 64
  usages : content.customGates → content.usageData.length < 2 ^ 32 ∧
    ∀ usage ∈ content.usageData, 0 ∉ nameBytes usage.1 ∧ usage.2.length < 2 ^ 32 ∧
      ∀ parameter ∈ usage.2, InField content.headerData.field parameter
  applications : content.customGates → content.applicationData.length < 2 ^ 32 ∧
    ∀ application ∈ content.applicationData, R1csReader.FitsApplication application

/-- The data read from a file are the data that were written, constraints as finite maps. -/
structure R1csReader.R1CSData.Holds (info : R1csReader.R1CSData) (content : R1CSContent) : Prop where
  headerData : info.headerData =
    { field := content.headerData.field
      fieldSize := content.fieldSize
      totalWires := content.headerData.totalWires
      publicOutputs := content.headerData.publicOutputs
      publicInputs := content.headerData.publicInputs
      privateInputs := content.headerData.privateInputs
      numberOfLabels := content.headerData.numberOfLabels
      numberOfConstraints := content.headerData.numberOfConstraints }
  constraints :
    info.constraints.map (fun c => (c.1.toFinmap, c.2.1.toFinmap, c.2.2.toFinmap)) =
      content.constraints.map fun c => (c.1.toFinmap, c.2.1.toFinmap, c.2.2.toFinmap)
  signals : info.signals = content.wires
  customGates : info.customGates = content.customGates
  usages : info.customGatesUsedData = if content.customGates then some content.usageData else none
  applications : info.customGatesAppliedData =
    if content.customGates then some content.applicationData else none

/-! ## The size of the field -/

theorem lt_fieldSizeOf {field : ℤ} (h : 0 < field) : field < 256 ^ fieldSizeOf field := by
  obtain ⟨n, rfl⟩ := Int.eq_ofNat_of_zero_le h.le
  have hbits : n < 2 ^ Algebra.ModularArithmetic.bits n := Nat.lt_size_self n
  have hle : Algebra.ModularArithmetic.bits n ≤ 8 * fieldSizeOf n := by
    rw [fieldSizeOf]
    split_ifs with hround
    all_goals omega
  have hpow : (256 : ℕ) ^ fieldSizeOf n = 2 ^ (8 * fieldSizeOf n) := by
    rw [pow_mul]
    norm_num
  have hlt : n < 256 ^ fieldSizeOf n := by
    rw [hpow]
    exact hbits.trans_le (Nat.pow_le_pow_right (by decide) hle)
  exact_mod_cast hlt

theorem fieldSizeOf_pos {field : ℤ} (h : 0 < field) : 0 < fieldSizeOf field := by
  by_contra hzero
  have hlt := lt_fieldSizeOf h
  rw [Nat.eq_zero_of_not_pos hzero] at hlt
  omega

namespace R1CSContent.WellFormed

variable {content : R1CSContent}

theorem lt_of_inField (hwf : content.WellFormed) {v : ℤ}
    (h : InField content.headerData.field v) : 0 ≤ v ∧ v < 256 ^ content.fieldSize :=
  ⟨h.1, h.2.trans (lt_fieldSizeOf hwf.field_pos)⟩

theorem fitsBlock (hwf : content.WellFormed) {c : Constraint}
    (h : ConstraintInRange content.headerData.field c) :
    R1csReader.FitsBlock content.fieldSize c := by
  refine ⟨h.1, ?_⟩
  intro e he
  exact ⟨(h.2 e he).1, hwf.lt_of_inField (h.2 e he).2⟩

end R1CSContent.WellFormed

namespace R1csReader

/-! ## The start of a section -/

theorem partStarts_append (pos : ℕ) (ps qs : List Part) (starts : HashMap ℕ ℕ) :
    partStarts pos (ps ++ qs) starts =
      partStarts (pos + (ps.flatMap Part.bytes).length) qs (partStarts pos ps starts) := by
  induction ps generalizing pos starts with
  | nil => rfl
  | cons p ps ih =>
    rw [List.cons_append, partStarts, ih, List.flatMap_cons, List.length_append, Nat.add_assoc]
    rfl

theorem lookup_partStarts_of_notMem {t : ℕ} {parts : List Part}
    (h : ∀ part ∈ parts, t ≠ part.type.toNat) (pos : ℕ) (starts : HashMap ℕ ℕ) :
    (partStarts pos parts starts).lookup t = starts.lookup t := by
  induction parts generalizing pos starts with
  | nil => rfl
  | cons part parts ih =>
    rw [partStarts, ih fun p hp => h p (List.mem_cons_of_mem part hp),
      AList.lookup_insert_ne (h part List.mem_cons_self)]

/-- With distinct types every section is found. -/
theorem readAt_eq {α : Type} {read : Read ReadError α} {a : α} {parts : List Part} {part : Part}
    (hmem : part ∈ parts) (hnodup : (parts.map fun p => p.type.toNat).Nodup)
    (hread : Reads read part.bytes a) {file pre : List UInt8}
    (hfile : file = pre ++ parts.flatMap Part.bytes) (starts : HashMap ℕ ℕ) (name : String)
    (pos : ℕ) :
    ∃ pos', readAt (partStarts pre.length parts starts) part.type.toNat name read ⟨file, pos⟩ =
      .ok (a, ⟨file, pos'⟩) := by
  obtain ⟨ps, qs, rfl⟩ := List.append_of_mem hmem
  have hlast : ∀ q ∈ qs, part.type.toNat ≠ q.type.toNat := by
    intro q hq
    rw [List.map_append, List.map_cons, List.nodup_append, List.nodup_cons] at hnodup
    intro heq
    rw [heq] at hnodup
    exact hnodup.2.1.1 (List.mem_map_of_mem hq)
  have hstart : (partStarts pre.length (ps ++ part :: qs) starts).lookup part.type.toNat =
      some (pre ++ ps.flatMap Part.bytes).length := by
    rw [partStarts_append, partStarts, lookup_partStarts_of_notMem hlast, AList.lookup_insert,
      List.length_append]
  have hcut : file = pre ++ ps.flatMap Part.bytes ++ part.bytes ++ qs.flatMap Part.bytes := by
    rw [hfile, List.flatMap_append, List.flatMap_cons]
    simp only [List.append_assoc]
  rw [readAt, hstart]
  exact ⟨_, hread.eq_ok hcut rfl rfl⟩

/-! ## The whole file -/

theorem reads_readInitialization (n : UInt8) :
    Reads readInitialization (magic ++ (version ++ [n, 0, 0, 0])) [n, 0, 0, 0] := by
  have hmagic : Reads (readExact ReadError.unexpectedEof magic.length) magic magic :=
    reads_readExact _ rfl
  have hversion : Reads (readExact ReadError.unexpectedEof version.length) version version :=
    reads_readExact _ rfl
  unfold readInitialization
  refine hmagic.bind ?_
  rw [if_neg (not_not_intro rfl)]
  refine hversion.bind ?_
  rw [if_neg (not_not_intro rfl)]
  exact reads_readExact _ rfl

variable {content : R1CSContent}

theorem types_eq : content.parts.map (fun part => part.type.toNat) =
    if content.customGates then [2, 1, 3, 4, 5] else [2, 1, 3] := by
  rw [R1CSContent.parts]
  cases content.customGates with
  | false => rfl
  | true => rfl

theorem numSections_eq :
    content.numSections.toNat = if content.customGates then 5 else 3 := by
  rw [R1CSContent.numSections]
  cases content.customGates with
  | false => rfl
  | true => rfl

theorem length_parts : content.parts.length = content.numSections.toNat := by
  rw [numSections_eq, ← List.length_map (fun part : Part => part.type.toNat), types_eq]
  split_ifs
  · rfl
  · rfl

theorem nodup_types : (content.parts.map fun part => part.type.toNat).Nodup := by
  rw [types_eq]
  split_ifs
  · decide
  · decide

theorem type_of_mem_parts {part : Part} (h : part ∈ content.parts) :
    1 ≤ part.type.toNat ∧ part.type.toNat ≤ content.numSections.toNat := by
  have hmem := List.mem_map_of_mem (f := fun part : Part => part.type.toNat) h
  rw [types_eq] at hmem
  rw [numSections_eq]
  revert hmem
  generalize part.type.toNat = t
  split_ifs
  · simp only [List.mem_cons, List.not_mem_nil, or_false]
    omega
  · simp only [List.mem_cons, List.not_mem_nil, or_false]
    omega

/-- Sections are not longer than the file. -/
theorem length_part_lt {part : Part} (h : part ∈ content.parts)
    (hsize : content.fileBytes.length < maxSize) : part.content.length < maxSize := by
  obtain ⟨ps, qs, hparts⟩ := List.append_of_mem h
  rw [R1CSContent.fileBytes, hparts, List.flatMap_append, List.flatMap_cons, Part.bytes] at hsize
  simp only [List.length_append] at hsize
  omega

/-- The header that is read back. -/
def headerOf (content : R1CSContent) : HeaderData where
  field := content.headerData.field
  fieldSize := content.fieldSize
  totalWires := content.headerData.totalWires
  publicOutputs := content.headerData.publicOutputs
  publicInputs := content.headerData.publicInputs
  privateInputs := content.headerData.privateInputs
  numberOfLabels := content.headerData.numberOfLabels
  numberOfConstraints := content.headerData.numberOfConstraints

/-- The data that are read back. -/
def infoOf (content : R1CSContent) : R1CSData where
  headerData := headerOf content
  constraints := content.constraints.map fun c => (readBack c.1, readBack c.2.1, readBack c.2.2)
  signals := content.wires
  customGates := content.customGates
  customGatesUsedData := if content.customGates then some content.usageData else none
  customGatesAppliedData := if content.customGates then some content.applicationData else none

theorem holds_infoOf (content : R1CSContent) : (infoOf content).Holds content where
  headerData := rfl
  constraints := by
    rw [infoOf, List.map_map]
    refine List.map_congr_left ?_
    intro c _
    simp only [Function.comp_apply, toFinmap_readBack]
  signals := rfl
  customGates := rfl
  usages := rfl
  applications := rfl

section Contents

variable (hwf : content.WellFormed)
include hwf

theorem reads_headerPart :
    Reads readHeaderData content.headerPart.content (headerOf content) :=
  reads_readHeaderData (fieldSizeOf_pos hwf.field_pos) hwf.fieldSize_lt hwf.field_pos.le
    (lt_fieldSizeOf hwf.field_pos) hwf.fields_lt

theorem reads_constraintsPart :
    Reads (readTimes (readConstraintUsize content.fieldSize)
        content.headerData.numberOfConstraints) content.constraintsPart.content
      (content.constraints.map fun c => (readBack c.1, readBack c.2.1, readBack c.2.2)) := by
  rw [hwf.noConstraints]
  apply reads_readTimes
  intro c hc
  obtain ⟨ha, hb, hc⟩ := hwf.constraints c hc
  exact reads_readConstraintUsize (fieldSizeOf_pos hwf.field_pos)
    ⟨hwf.fitsBlock ha, hwf.fitsBlock hb, hwf.fitsBlock hc⟩

theorem reads_wiresPart :
    Reads (readTimes readSignalUsize content.headerData.totalWires) content.wiresPart.content
      content.wires := by
  rw [hwf.noWires]
  exact reads_readSignals hwf.wires

theorem reads_usagesPart (h : content.customGates) :
    Reads (readCustomGatesUsages content.fieldSize) content.usagesPart.content
      content.usageData := by
  obtain ⟨hcount, husages⟩ := hwf.usages h
  apply reads_readCustomGatesUsages (fieldSizeOf_pos hwf.field_pos) hcount
  intro usage husage
  obtain ⟨hname, hlength, hparameters⟩ := husages usage husage
  exact ⟨hname, hlength, fun v hv => hwf.lt_of_inField (hparameters v hv)⟩

theorem reads_applicationsPart (h : content.customGates) :
    Reads readCustomGatesApplications content.applicationsPart.content content.applicationData :=
  reads_readCustomGatesApplications (hwf.applications h).1 (hwf.applications h).2

end Contents

/-- A section of the file is found and read. -/
theorem readAt_part {α : Type} {read : Read ReadError α} {a : α} {part : Part}
    (hpart : part ∈ content.parts) (hread : Reads read part.content a)
    (hsize : content.fileBytes.length < maxSize) (name : String) (pos : ℕ) :
    ∃ pos', readAt (partStarts 12 content.parts ∅) part.type.toNat name
      (readWholeSection part.header read) ⟨content.fileBytes, pos⟩ =
        .ok (a, ⟨content.fileBytes, pos'⟩) := by
  have hfile : content.fileBytes = magic ++ version ++ [content.numSections, 0, 0, 0] ++
      content.parts.flatMap Part.bytes := rfl
  exact readAt_eq hpart nodup_types (reads_readWholeSection hread (length_part_lt hpart hsize))
    hfile ∅ name pos

theorem readSections_eq (hwf : content.WellFormed) (hsize : content.fileBytes.length < maxSize)
    (pos : ℕ) :
    ∃ pos', readSections content.customGates (partStarts 12 content.parts ∅)
      ⟨content.fileBytes, pos⟩ = .ok (infoOf content, ⟨content.fileBytes, pos'⟩) := by
  have hmem1 : content.headerPart ∈ content.parts :=
    List.mem_append_left _ (List.mem_cons_of_mem _ List.mem_cons_self)
  have hmem2 : content.constraintsPart ∈ content.parts :=
    List.mem_append_left _ List.mem_cons_self
  have hmem3 : content.wiresPart ∈ content.parts :=
    List.mem_append_left _ (List.mem_cons_of_mem _ (List.mem_cons_of_mem _ List.mem_cons_self))
  obtain ⟨pos1, hheader⟩ := readAt_part hmem1 (reads_headerPart hwf) hsize "Header" pos
  obtain ⟨pos2, hconstraints⟩ :=
    readAt_part hmem2 (reads_constraintsPart hwf) hsize "Constraints" pos1
  obtain ⟨pos3, hwires⟩ := readAt_part hmem3 (reads_wiresPart hwf) hsize "Signals" pos2
  rw [readSections]
  cases hcustom : content.customGates with
  | false =>
    have hinfo : infoOf content = ⟨headerOf content,
        content.constraints.map fun c => (readBack c.1, readBack c.2.1, readBack c.2.2),
        content.wires, false, none, none⟩ := by
      simp only [infoOf, hcustom, Bool.false_eq_true, if_false]
    rw [hinfo]
    refine ⟨pos3, ?_⟩
    refine (bind_of_ok hheader _).trans ?_
    refine (bind_of_ok hconstraints _).trans ?_
    exact bind_of_ok hwires _
  | true =>
    have hmem4 : content.usagesPart ∈ content.parts := by
      rw [R1CSContent.parts, hcustom]
      exact List.mem_append_right _ List.mem_cons_self
    have hmem5 : content.applicationsPart ∈ content.parts := by
      rw [R1CSContent.parts, hcustom]
      exact List.mem_append_right _ (List.mem_cons_of_mem _ List.mem_cons_self)
    obtain ⟨pos4, husages⟩ :=
      readAt_part hmem4 (reads_usagesPart hwf hcustom) hsize "Custom Gates Used" pos3
    obtain ⟨pos5, happlications⟩ :=
      readAt_part hmem5 (reads_applicationsPart hwf hcustom) hsize "Custom Gates Applied" pos4
    have hinfo : infoOf content = ⟨headerOf content,
        content.constraints.map fun c => (readBack c.1, readBack c.2.1, readBack c.2.2),
        content.wires, true, some content.usageData, some content.applicationData⟩ := by
      simp only [infoOf, hcustom, if_true]
    rw [hinfo]
    refine ⟨pos5, ?_⟩
    refine (bind_of_ok hheader _).trans ?_
    refine (bind_of_ok hconstraints _).trans ?_
    refine (bind_of_ok hwires _).trans ?_
    refine (bind_of_ok husages _).trans ?_
    exact bind_of_ok happlications _

theorem readR1cs_fileBytes (hwf : content.WellFormed)
    (hsize : content.fileBytes.length < maxSize) :
    readR1cs content.fileBytes = .ok (infoOf content) := by
  have hfile : content.fileBytes = magic ++ version ++ [content.numSections, 0, 0, 0] ++
      content.parts.flatMap Part.bytes := rfl
  have hfile' : content.fileBytes = [] ++ (magic ++ (version ++ [content.numSections, 0, 0, 0])) ++
      content.parts.flatMap Part.bytes := by
    rw [hfile, List.nil_append, List.append_assoc magic]
  have hstart : readInitialization ⟨content.fileBytes, 0⟩ =
      .ok ([content.numSections, 0, 0, 0], ⟨content.fileBytes, 12⟩) :=
    (reads_readInitialization content.numSections).eq_ok hfile' rfl rfl
  have hpos : ((12 : ℕ) : ℤ) + 0 = (magic ++ version ++ [content.numSections, 0, 0, 0]).length := rfl
  obtain ⟨pos, hscan⟩ := scanSections_parts (fun part hpart => ⟨(type_of_mem_parts hpart).1,
    (type_of_mem_parts hpart).2, length_part_lt hpart hsize⟩) hfile hpos ∅
  obtain ⟨pos', hsections⟩ := readSections_eq hwf hsize pos
  have hcustom : decide (content.numSections.toNat = 5) = content.customGates := by
    rw [numSections_eq]
    cases content.customGates with
    | false => rfl
    | true => rfl
  rw [length_parts] at hscan
  have hscan' : scanSections content.numSections.toNat content.numSections.toNat 0 ∅
      ⟨content.fileBytes, 12⟩ =
        .ok (partStarts 12 content.parts ∅, ⟨content.fileBytes, pos⟩) := hscan
  rw [readR1cs, hstart]
  show (scanSections content.numSections.toNat content.numSections.toNat 0 ∅ _ >>= fun y =>
    readSections (decide (content.numSections.toNat = 5)) y.1 y.2 >>= fun z => Except.ok z.1) = _
  rw [hscan', hcustom]
  show (readSections content.customGates _ _ >>= fun z => Except.ok z.1) = _
  rw [hsections]
  rfl

end R1csReader

/-- Writing and reading back. The file is not written exactly when it would be too long. -/
theorem readR1cs_portR1cs {content : R1CSContent} (hwf : content.WellFormed) :
    ((∃ bytes, portR1cs content = some bytes) ↔ content.fileBytes.length < maxSize) ∧
      ∀ bytes, portR1cs content = some bytes →
        ∃ info, R1csReader.readR1cs bytes = .ok info ∧ info.Holds content := by
  rw [portR1cs_eq]
  by_cases hsize : content.fileBytes.length < maxSize
  · rw [if_pos hsize]
    refine ⟨⟨fun _ => hsize, fun _ => ⟨_, rfl⟩⟩, ?_⟩
    intro bytes hbytes
    rw [← Option.some.inj hbytes]
    exact ⟨_, R1csReader.readR1cs_fileBytes hwf hsize, R1csReader.holds_infoOf content⟩
  · rw [if_neg hsize]
    refine ⟨⟨?_, fun h => absurd h hsize⟩, ?_⟩
    · rintro ⟨bytes, hbytes⟩
      cases hbytes
    · intro bytes hbytes
      cases hbytes

/-- One constraint, one gate with a parameter, and one application of it. -/
def smallContent : R1CSContent where
  constraints := [(AList.singleton 1 3, AList.singleton 2 1, AList.ofPairs [(0, 6), (300, 2)])]
  headerData := ⟨7, 3, 0, 1, 1, 5, 1⟩
  wires := [0, 1, 4]
  customGates := true
  usageData := [("G", [3])]
  applicationData := [(0, [1, 2])]

theorem readR1cs_portR1cs_seven :
    smallContent.WellFormed ∧
      ∃ bytes info, portR1cs smallContent = some bytes ∧ R1csReader.readR1cs bytes = .ok info ∧
        info.Holds smallContent := by
  have hwf : smallContent.WellFormed := by
    refine ⟨by decide, by decide, by decide, rfl, rfl, ?_, by decide, ?_, ?_⟩
    · simp only [ConstraintInRange, InField]
      decide
    · intro _
      simp only [InField]
      decide
    · intro _
      simp only [R1csReader.FitsApplication]
      decide
  have hsize : smallContent.fileBytes.length < maxSize := by
    unfold maxSize
    decide +kernel
  obtain ⟨hreturns, hread⟩ := readR1cs_portR1cs hwf
  obtain ⟨bytes, hbytes⟩ := hreturns.mpr hsize
  obtain ⟨info, hinfo, hholds⟩ := hread bytes hbytes
  exact ⟨hwf, bytes, info, hbytes, hinfo, hholds⟩

/-- The index of a gate that does not fit into its four bytes. -/
def wideIndex : R1CSContent where
  constraints := []
  headerData := ⟨7, 0, 0, 0, 0, 0, 0⟩
  wires := []
  customGates := true
  usageData := []
  applicationData := [(2 ^ 32, [])]

/-- The index takes five bytes, and what follows is read one byte too early. -/
theorem readR1cs_fails_wideIndex :
    (∀ d ∈ wideIndex.headerData.dataStream, d.1 < 256 ^ d.2) ∧
      ∃ bytes, portR1cs wideIndex = some bytes ∧
        ¬ ∃ info, R1csReader.readR1cs bytes = .ok info ∧ info.Holds wideIndex := by
  have hsize : wideIndex.fileBytes.length < maxSize := by
    unfold maxSize
    decide +kernel
  have hfails : (R1csReader.readR1cs wideIndex.fileBytes).toOption.isNone = true := by
    decide +kernel
  refine ⟨by decide, wideIndex.fileBytes, ?_, ?_⟩
  · rw [portR1cs_eq, if_pos hsize]
  · rintro ⟨info, hinfo, -⟩
    rw [hinfo] at hfails
    cases hfails

end Circom.ConstraintWriters
