import Circom.ConstraintWriters.Proofs.Format

/-!
# The writer produces the format

The writer fails when the file would reach the largest offset, and for no other reason.
-/

namespace Circom.ConstraintWriters

open Circom.Lib (Appends ByteWriter appends_foldlM encodeLe length_encodeLe)
open Circom.Lib.ByteWriter (atEnd maxSize writeAll_atEnd writeAll_seek)

/-! ## Inside a section -/

namespace Section

/-- A section that starts behind `before` and has written `content`. -/
def containing (fieldSize : ℕ) (before content : List UInt8) : Section where
  writer := atEnd (before ++ content)
  goBack := before.length - placeHolder.length
  size := content.length
  fieldSize := fieldSize

/-- The action adds the bytes to the content of a section. -/
def Puts (fieldSize : ℕ) (before : List UInt8) (f : Section → Option Section)
    (data : List UInt8) : Prop :=
  Appends (maxSize - before.length) (containing fieldSize before) f data

variable {fieldSize : ℕ} {before : List UInt8}

theorem puts_put (data : List UInt8) :
    Puts fieldSize before (fun s => s.put data data.length) data := by
  intro content _
  show ((atEnd (before ++ content)).writeAll data).bind _ = _
  rw [writeAll_atEnd, List.append_assoc]
  have hiff : (before ++ (content ++ data)).length < maxSize ↔
      (content ++ data).length < maxSize - before.length := by
    rw [List.length_append]
    omega
  by_cases hroom : (content ++ data).length < maxSize - before.length
  · rw [if_pos (hiff.mpr hroom), if_pos hroom, Option.bind_some]
    simp [containing]
  · rw [if_neg (fun h => hroom (hiff.mp h)), if_neg hroom, Option.bind_none]

theorem puts_putNumber (number : ℤ) (withBytes : ℕ) :
    Puts fieldSize before (fun s => s.putNumber number withBytes)
      (encodeLe withBytes number.natAbs) :=
  puts_put _

theorem puts_putNat (number withBytes : ℕ) :
    Puts fieldSize before (fun s => s.putNumber number withBytes) (encodeLe withBytes number) :=
  puts_putNumber number withBytes

theorem puts_foldlM {α : Type} {f : Section → α → Option Section} {encode : α → List UInt8}
    (h : ∀ a, Puts fieldSize before (f · a) (encode a)) (l : List α) :
    Puts fieldSize before (fun s => l.foldlM f s) (l.flatMap encode) :=
  appends_foldlM fun a _ => h a

theorem puts_writeConstraintUsize (c : Constraint × Constraint × Constraint) :
    Puts fieldSize before (fun s => s.writeConstraintUsize c.1 c.2.1 c.2.2)
      (constraintBytes fieldSize c) := by
  have hblock : ∀ m, Puts fieldSize before
      (fun s => s.put (blockBytes fieldSize m) (blockBytes fieldSize m).length)
      (blockBytes fieldSize m) := fun m => puts_put (blockBytes fieldSize m)
  intro content h
  refine Eq.trans ?_ ((hblock (keysAsBytes c.1)).bind
    ((hblock (keysAsBytes c.2.1)).bind (hblock (keysAsBytes c.2.2))) content h)
  -- the three blocks are counted together
  show (writeConstraint _ _ _ _ fieldSize).bind _ = _
  simp only [writeConstraint, obtainLinearCombinationBlock_eq, put, Option.bind_eq_bind,
    Option.bind_some, Option.bind_assoc, containing, Nat.add_assoc]

/-- A field element, with the size that the section knows. -/
theorem puts_putElement (number : ℤ) :
    Puts fieldSize before (fun s => s.putNumber number s.fieldSize)
      (encodeLe fieldSize number.natAbs) :=
  fun content h => puts_putNumber number fieldSize content h

theorem puts_writeSection (data : HeaderData) :
    Puts fieldSize before (fun s => s.writeSection data) (headerBytes fieldSize data) := by
  have hsize : Puts fieldSize before (fun s => s.putNumber s.fieldSize 4) (encodeLe 4 fieldSize) :=
    fun content h => puts_putNat fieldSize 4 content h
  have hfields : Puts fieldSize before
      (fun s => data.dataStream.foldlM (fun (s : Section) d => s.putNumber d.1 d.2) s)
      (data.dataStream.flatMap fun d => encodeLe d.2 d.1) := by
    apply puts_foldlM
    intro d
    exact puts_putNat d.1 d.2
  unfold writeSection headerBytes
  exact hsize.bind ((puts_putElement data.field).bind hfields)

theorem puts_writeSignalUsize (signal : ℕ) :
    Puts fieldSize before (fun s => s.writeSignalUsize signal) (encodeLe 8 signal) :=
  puts_put _

theorem puts_writeCustomGateUsage (usage : String × List ℤ) :
    Puts fieldSize before (fun s => s.writeCustomGateUsage usage) (usageBytes fieldSize usage) := by
  have hparameters : Puts fieldSize before
      (fun s => usage.2.foldlM (fun (s : Section) parameter => s.putNumber parameter s.fieldSize) s)
      (usage.2.flatMap fun parameter => encodeLe fieldSize parameter.natAbs) :=
    puts_foldlM puts_putElement usage.2
  have hsteps := (puts_put (nameBytes usage.1)).bind
    ((puts_put [0]).bind ((puts_putNat usage.2.length 4).bind hparameters))
  exact hsteps

theorem puts_writeCustomGatesUsages (data : CustomGatesUsedData) :
    Puts fieldSize before (fun s => s.writeCustomGatesUsages data)
      (usagesBytes fieldSize data) :=
  (puts_putNat data.length 4).bind
    (puts_foldlM puts_writeCustomGateUsage data)

theorem puts_writeCustomGateApplication (application : ℕ × List ℕ) :
    Puts fieldSize before (fun s => s.writeCustomGateApplication application)
      (applicationBytes application) :=
  (puts_putNat application.1 4).bind ((puts_putNat application.2.length 4).bind
    (puts_foldlM (fun signal => puts_putNat signal 8) application.2))

theorem puts_writeCustomGatesApplications (data : CustomGatesAppliedData) :
    Puts fieldSize before (fun s => s.writeCustomGatesApplications data)
      (applicationsBytes data) :=
  (puts_putNat data.length 4).bind
    (puts_foldlM puts_writeCustomGateApplication data)

end Section

/-! ## Sections of a file -/

/-- A writer that has written `bytes`. -/
def R1CSWriter.containing (fieldSize : ℕ) (bytes : List UInt8) : R1CSWriter :=
  { fieldSize := fieldSize, writer := atEnd bytes }

theorem length_bytes (part : Part) (h : part.content.length < maxSize) :
    part.bytes.length = part.header.length + placeHolder.length + part.content.length := by
  have hwidth : part.content.length < 256 ^ 8 := by
    unfold maxSize at h
    omega
  rw [Part.bytes, List.length_append, List.length_append, length_encodeLe (by decide) hwidth]
  rfl

/-- Where the file has room for the start of a section, the section begins. -/
theorem startSection_eq (fieldSize : ℕ) (type bytes : List UInt8) :
    (R1CSWriter.containing fieldSize bytes).startSection type =
      if (bytes ++ type ++ placeHolder).length < maxSize then
        some (Section.containing fieldSize (bytes ++ type ++ placeHolder) [])
      else none := by
  show ((((atEnd bytes).writeAll type).bind fun w => (w.writeAll placeHolder).bind fun w' =>
    some (w.pos, w')).bind _) = _
  rw [writeAll_atEnd]
  by_cases htype : (bytes ++ type).length < maxSize
  · rw [if_pos htype, Option.bind_some, writeAll_atEnd]
    split_ifs
    · have hback : (bytes ++ type ++ placeHolder).length - placeHolder.length =
          (bytes ++ type).length := by
        rw [List.length_append]
        omega
      simp only [Option.bind_some, Section.containing, R1CSWriter.containing, hback,
        List.append_nil, List.length_nil, atEnd]
    · rfl
  · have hlong : ¬ (bytes ++ type ++ placeHolder).length < maxSize := by
      rw [List.length_append]
      omega
    rw [if_neg htype, if_neg hlong]
    rfl

/-- Going back, the size takes the place of the place holder. -/
theorem endSection_eq (fieldSize : ℕ) (part : Part) (bytes : List UInt8)
    (h : (bytes ++ part.header ++ placeHolder ++ part.content).length < maxSize) :
    (Section.containing fieldSize (bytes ++ part.header ++ placeHolder) part.content).endSection =
      some (R1CSWriter.containing fieldSize (bytes ++ part.bytes)) := by
  have hcontent : part.content.length < 256 ^ 8 := by
    have hlt := h
    rw [List.length_append] at hlt
    unfold maxSize at hlt
    omega
  have hwidth : (encodeLe 8 part.content.length).length = placeHolder.length :=
    length_encodeLe (by decide) hcontent
  have hback : (bytes ++ part.header ++ placeHolder).length - placeHolder.length =
      (bytes ++ part.header).length := by
    rw [List.length_append]
    omega
  have hend : (bytes ++ part.header ++ placeHolder ++ part.content).length =
      (bytes ++ part.bytes).length := by
    simp only [Part.bytes, List.length_append, hwidth]
    omega
  show ((((atEnd (bytes ++ part.header ++ placeHolder ++ part.content)).seek
    ((bytes ++ part.header ++ placeHolder).length - placeHolder.length)).writeAll
      (encodeLe 8 part.content.length)).bind _).bind _ = _
  rw [hback, writeAll_seek hwidth h, Option.bind_some, Option.bind_some]
  show some (R1CSWriter.mk fieldSize ⟨bytes ++ part.header ++ encodeLe 8 part.content.length ++
    part.content, (bytes ++ part.header ++ placeHolder ++ part.content).length⟩) = _
  rw [hend]
  simp only [R1CSWriter.containing, atEnd, Part.bytes, List.append_assoc]

/-- Starting a section, filling it, and ending it. -/
theorem appends_section (fieldSize : ℕ) (part : Part) {f : Section → Option Section}
    (hf : ∀ before, Section.Puts fieldSize before f part.content) :
    Appends maxSize (R1CSWriter.containing fieldSize)
      (fun r1cs => do
        let s ← r1cs.startSection part.header
        let s ← f s
        s.endSection) part.bytes := by
  intro bytes _
  show ((R1CSWriter.containing fieldSize bytes).startSection part.header).bind
    (fun s => (f s).bind Section.endSection) = _
  have hiff : (bytes ++ part.bytes).length < maxSize ↔
      (bytes ++ part.header ++ placeHolder ++ part.content).length < maxSize := by
    by_cases hcontent : part.content.length < maxSize
    · simp only [List.length_append, length_bytes part hcontent]
      omega
    · simp only [Part.bytes, List.length_append]
      omega
  rw [startSection_eq]
  by_cases hstart : (bytes ++ part.header ++ placeHolder).length < maxSize
  · rw [if_pos hstart, Option.bind_some,
      hf (bytes ++ part.header ++ placeHolder) [] (by simpa using hstart), List.nil_append]
    by_cases hall : (bytes ++ part.bytes).length < maxSize
    · have hfull := hiff.mp hall
      have hroom : part.content.length < maxSize - (bytes ++ part.header ++ placeHolder).length := by
        rw [List.length_append] at hfull
        omega
      rw [if_pos hall, if_pos hroom, Option.bind_some, endSection_eq fieldSize part bytes hfull]
    · have hfull : ¬ (bytes ++ part.header ++ placeHolder ++ part.content).length < maxSize :=
        fun h => hall (hiff.mpr h)
      have hroom : ¬ part.content.length <
          maxSize - (bytes ++ part.header ++ placeHolder).length := by
        rw [List.length_append] at hfull
        omega
      rw [if_neg hall, if_neg hroom, Option.bind_none]
  · have hlong : ¬ (bytes ++ part.bytes).length < maxSize := by
      rw [hiff, List.length_append]
      omega
    rw [if_neg hstart, if_neg hlong, Option.bind_none]

/-! ## The whole file -/

theorem new_eq (content : R1CSContent) :
    R1CSWriter.new content.fieldSize content.customGates =
      some (R1CSWriter.containing content.fieldSize
        (magic ++ version ++ [content.numSections, 0, 0, 0])) := by
  have hsmall : ∀ data : List UInt8, data.length ≤ 12 → data.length < maxSize := by
    intro data h
    unfold maxSize
    omega
  have hfile : ∀ n, initializeFile ByteWriter.empty n =
      some (atEnd (magic ++ version ++ [n, 0, 0, 0])) := by
    intro n
    show ((atEnd []).writeAll magic).bind (fun w => (w.writeAll version).bind
      fun w => w.writeAll [n, 0, 0, 0]) = _
    rw [writeAll_atEnd, if_pos (hsmall _ (by decide)), Option.bind_some, writeAll_atEnd,
      if_pos (hsmall _ (by decide)), Option.bind_some, writeAll_atEnd,
      if_pos (hsmall _ (by rfl))]
    rfl
  show (initializeFile ByteWriter.empty content.numSections).bind _ = _
  rw [hfile, Option.bind_some]
  rfl

/-- What a chain of sections leaves in the file. -/
theorem bind_bytes_eq {fieldSize : ℕ} {f : R1CSWriter → Option R1CSWriter}
    {start data : List UInt8} (hf : Appends maxSize (R1CSWriter.containing fieldSize) f data)
    (hstart : start.length < maxSize) :
    (f (R1CSWriter.containing fieldSize start)).bind (fun r1cs => some r1cs.writer.bytes) =
      if (start ++ data).length < maxSize then some (start ++ data) else none := by
  rw [hf start hstart]
  split_ifs
  · rfl
  · rfl

/-- The file is the format of its content, if it is short enough. -/
theorem portR1cs_eq (content : R1CSContent) :
    portR1cs content =
      if content.fileBytes.length < maxSize then some content.fileBytes else none := by
  have hconstraints := appends_section content.fieldSize content.constraintsPart
    fun before => Section.puts_foldlM Section.puts_writeConstraintUsize content.constraints
  have hheader := appends_section content.fieldSize content.headerPart
    fun before => Section.puts_writeSection content.headerData
  have hwires := appends_section content.fieldSize content.wiresPart
    fun before => Section.puts_foldlM Section.puts_writeSignalUsize content.wires
  have hstart : (magic ++ version ++ [content.numSections, 0, 0, 0]).length < maxSize := by
    show 12 < maxSize
    unfold maxSize
    omega
  have hnew := new_eq content
  have hbytes : content.fileBytes = magic ++ version ++ [content.numSections, 0, 0, 0] ++
      content.parts.flatMap Part.bytes := rfl
  rw [portR1cs]
  cases hcustom : content.customGates with
  | false =>
    have hsteps := bind_bytes_eq (hconstraints.bind (hheader.bind hwires)) hstart
    rw [hcustom] at hnew
    simp only [R1CSContent.parts, hcustom, Bool.false_eq_true, if_false, List.append_nil,
      List.flatMap_cons, List.flatMap_nil] at hbytes
    rw [hbytes, ← hsteps]
    show (R1CSWriter.new content.fieldSize false).bind _ = _
    rw [hnew, Option.bind_some]
    simp only [Option.bind_eq_bind, Option.bind_assoc]
    rfl
  | true =>
    have husages := appends_section content.fieldSize content.usagesPart
      fun before => Section.puts_writeCustomGatesUsages content.usageData
    have happlications := appends_section content.fieldSize content.applicationsPart
      fun before => Section.puts_writeCustomGatesApplications content.applicationData
    have hsteps := bind_bytes_eq
      (hconstraints.bind (hheader.bind (hwires.bind (husages.bind happlications)))) hstart
    rw [hcustom] at hnew
    simp only [R1CSContent.parts, hcustom, if_true, List.cons_append, List.nil_append,
      List.append_nil, List.flatMap_cons, List.flatMap_nil] at hbytes
    rw [hbytes, ← hsteps]
    show (R1CSWriter.new content.fieldSize true).bind _ = _
    rw [hnew, Option.bind_some]
    simp only [Option.bind_eq_bind, Option.bind_assoc]
    rfl

end Circom.ConstraintWriters
