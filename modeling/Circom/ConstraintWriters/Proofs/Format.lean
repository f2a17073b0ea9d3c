import Circom.ConstraintWriters.R1csWriter

/-!
# The format of R1CS files

What `port_r1cs` leaves in the file: every section with the size of its content in front of it.
-/

namespace Circom.ConstraintWriters

open Circom.Lib (Appends ByteWriter HashMap appends_foldlM encodeLe padTo toBytesLe)
open Circom.Lib.ByteWriter (atEnd maxSize writeAll_atEnd writeAll_seek)

/-! ## The parts of a file -/

/-- A section: its type and the bytes of its content. -/
structure Part where
  type : UInt8
  content : List UInt8

def Part.header (part : Part) : List UInt8 := [part.type, 0, 0, 0]

def Part.bytes (part : Part) : List UInt8 :=
  part.header ++ encodeLe 8 part.content.length ++ part.content

/-- The entries of a linear combination in the order of the file. -/
def factors (m : HashMap (List UInt8) ℤ) : List (List UInt8 × ℤ) :=
  (m.keys.insertionSort (· ≤ ·)).map fun i => (i, (m.lookup i).getD 0)

def factorBytes (fieldSize : ℕ) (e : List UInt8 × ℤ) : List UInt8 :=
  padTo 4 e.1 ++ encodeLe fieldSize e.2.natAbs

def blockBytes (fieldSize : ℕ) (m : HashMap (List UInt8) ℤ) : List UInt8 :=
  encodeLe 4 m.len ++ (factors m).flatMap (factorBytes fieldSize)

def constraintBytes (fieldSize : ℕ) (c : Constraint × Constraint × Constraint) : List UInt8 :=
  blockBytes fieldSize (Section.keysAsBytes c.1) ++
    (blockBytes fieldSize (Section.keysAsBytes c.2.1) ++
      blockBytes fieldSize (Section.keysAsBytes c.2.2))

def headerBytes (fieldSize : ℕ) (data : HeaderData) : List UInt8 :=
  encodeLe 4 fieldSize ++ (encodeLe fieldSize data.field.natAbs ++
    data.dataStream.flatMap fun d => encodeLe d.2 d.1)

def nameBytes (name : String) : List UInt8 := name.toByteArray.data.toList

def usageBytes (fieldSize : ℕ) (usage : String × List ℤ) : List UInt8 :=
  nameBytes usage.1 ++ ([0] ++ (encodeLe 4 usage.2.length ++
    usage.2.flatMap fun parameter => encodeLe fieldSize parameter.natAbs))

def usagesBytes (fieldSize : ℕ) (data : CustomGatesUsedData) : List UInt8 :=
  encodeLe 4 data.length ++ data.flatMap (usageBytes fieldSize)

def applicationBytes (application : ℕ × List ℕ) : List UInt8 :=
  encodeLe 4 application.1 ++ (encodeLe 4 application.2.length ++
    application.2.flatMap (encodeLe 8))

def applicationsBytes (data : CustomGatesAppliedData) : List UInt8 :=
  encodeLe 4 data.length ++ data.flatMap applicationBytes

namespace R1CSContent

/-- The bytes of a field element. -/
def fieldSize (content : R1CSContent) : ℕ := fieldSizeOf content.headerData.field

def numSections (content : R1CSContent) : UInt8 := if content.customGates then 5 else 3

def constraintsPart (content : R1CSContent) : Part :=
  ⟨2, content.constraints.flatMap (constraintBytes content.fieldSize)⟩

def headerPart (content : R1CSContent) : Part :=
  ⟨1, headerBytes content.fieldSize content.headerData⟩

def wiresPart (content : R1CSContent) : Part := ⟨3, content.wires.flatMap (encodeLe 8)⟩

def usagesPart (content : R1CSContent) : Part :=
  ⟨4, usagesBytes content.fieldSize content.usageData⟩

def applicationsPart (content : R1CSContent) : Part :=
  ⟨5, applicationsBytes content.applicationData⟩

/-- The sections in the order in which they are written. -/
def parts (content : R1CSContent) : List Part :=
  [content.constraintsPart, content.headerPart, content.wiresPart] ++
    if content.customGates then [content.usagesPart, content.applicationsPart] else []

def fileBytes (content : R1CSContent) : List UInt8 :=
  magic ++ version ++ [content.numSections, 0, 0, 0] ++ content.parts.flatMap Part.bytes

end R1CSContent

/-! ## Linear combinations -/

/-- The order of the file lists every entry once. -/
theorem factors_perm (m : HashMap (List UInt8) ℤ) : (factors m).Perm m.pairs := by
  have hsort := (List.perm_insertionSort (· ≤ ·) m.keys).map fun i => (i, (m.lookup i).getD 0)
  refine hsort.trans (List.Perm.of_eq ?_)
  rw [← AList.pairs_map_fst, List.map_map]
  refine (List.map_congr_left ?_).trans (List.map_id _)
  intro e he
  have hlookup : m.lookup e.1 = some e.2 := AList.mem_pairs_iff_lookup.mp he
  simp [hlookup]

theorem pushFactor_eq {m : HashMap (List UInt8) ℤ} {fieldSize : ℕ} {i : List UInt8} (hi : i ∈ m)
    (block : List UInt8) :
    pushFactor m fieldSize (block, block.length) i =
      some (block ++ factorBytes fieldSize (i, (m.lookup i).getD 0),
        (block ++ factorBytes fieldSize (i, (m.lookup i).getD 0)).length) := by
  obtain ⟨factor, hfactor⟩ := AList.mem_iff_exists_lookup.mp hi
  simp [pushFactor, hfactor, factorBytes, intoFormat, bigintAsBytes, encodeLe, Nat.add_assoc]

theorem obtainLinearCombinationBlock_eq (m : HashMap (List UInt8) ℤ) (fieldSize : ℕ) :
    obtainLinearCombinationBlock m fieldSize =
      some (blockBytes fieldSize m, (blockBytes fieldSize m).length) := by
  have hrun : ∀ (order : List (List UInt8)) (block : List UInt8), (∀ i ∈ order, i ∈ m) →
      order.foldlM (pushFactor m fieldSize) (block, block.length) =
        some (block ++ order.flatMap fun i => factorBytes fieldSize (i, (m.lookup i).getD 0),
          (block ++ order.flatMap fun i => factorBytes fieldSize (i, (m.lookup i).getD 0)).length) := by
    intro order
    induction order with
    | nil =>
      intro block _
      simp
    | cons i order ih =>
      intro block h
      have htail : ∀ j ∈ order, j ∈ m := fun j hj => h j (List.mem_cons_of_mem i hj)
      rw [List.foldlM_cons, pushFactor_eq (h i List.mem_cons_self), Option.bind_eq_bind,
        Option.bind_some, ih _ htail, List.flatMap_cons, List.append_assoc]
  have hmem : ∀ i ∈ m.keys.insertionSort (· ≤ ·), i ∈ m := by
    intro i hi
    exact AList.mem_keys.mpr ((List.mem_insertionSort _).mp hi)
  have hstart : bigintAsBytes (m.len : ℤ) 4 = (encodeLe 4 m.len, (encodeLe 4 m.len).length) := rfl
  rw [obtainLinearCombinationBlock, hstart]
  show List.foldlM _ _ _ = _
  rw [hrun _ _ hmem, blockBytes, factors, List.flatMap_map]

end Circom.ConstraintWriters
