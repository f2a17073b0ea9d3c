import Circom.Algebra.ModularArithmetic
import Circom.Lib.ByteStream
import Circom.Lib.HashMap
import Circom.Lib.LittleEndian

/-!
# Writing R1CS files

`r1cs_writer` of the crate `constraint_writers`. A function returns `none` where the source returns an
error or panics. Of a section the model keeps what its functions read; the flags of the sections that
were written are not read by any.
-/

namespace Circom.ConstraintWriters

open Circom.Lib (ByteWriter HashMap padTo toBytesLe)

/-- `b"r1cs"`. -/
def magic : List UInt8 := [0x72, 0x31, 0x63, 0x73]

def version : List UInt8 := [1, 0, 0, 0]

def headerType : List UInt8 := [1, 0, 0, 0]

def constraintType : List UInt8 := [2, 0, 0, 0]

def wire2labelType : List UInt8 := [3, 0, 0, 0]

def customGatesUsedType : List UInt8 := [4, 0, 0, 0]

def customGatesAppliedType : List UInt8 := [5, 0, 0, 0]

def placeHolder : List UInt8 := [3, 3, 3, 3, 3, 3, 3, 3]

/-- Fills up with zeros; a number with more bytes keeps them all. -/
def intoFormat (number : List UInt8) (withBytes : ℕ) : List UInt8 × ℕ :=
  let value := padTo withBytes number
  (value, value.length)

def bigintAsBytes (number : ℤ) (withBytes : ℕ) : List UInt8 × ℕ :=
  intoFormat (toBytesLe number.natAbs) withBytes

/-! ## Sections -/

/-- Returns where the size of the section will have to be written. -/
def initializeSection (writer : ByteWriter) (header : List UInt8) : Option (ℕ × ByteWriter) := do
  let writer ← writer.writeAll header
  let goBack := writer.pos
  let writer ← writer.writeAll placeHolder
  some (goBack, writer)

def endSection (writer : ByteWriter) (goBack size : ℕ) : Option ByteWriter := do
  let goBack1 := writer.pos
  let writer := writer.seek goBack
  let (stream, _) := bigintAsBytes size 8
  let writer ← writer.writeAll stream
  some (writer.seek goBack1)

/-- Appends an entry to a block. -/
def pushFactor (linearCombination : HashMap (List UInt8) ℤ) (fieldSize : ℕ)
    (acc : List UInt8 × ℕ) (i : List UInt8) : Option (List UInt8 × ℕ) := do
  let (block, size) := acc
  let factor ← linearCombination.lookup i
  let (stream, bytes) := intoFormat i 4
  let (stream', bytes') := bigintAsBytes factor fieldSize
  some (block ++ stream ++ stream', size + bytes + bytes')

def obtainLinearCombinationBlock (linearCombination : HashMap (List UInt8) ℤ) (fieldSize : ℕ) :
    Option (List UInt8 × ℕ) :=
  let (stream, bytes) := bigintAsBytes linearCombination.len 4
  let order := linearCombination.keys.insertionSort (· ≤ ·)
  order.foldlM (pushFactor linearCombination fieldSize) (stream, bytes)

def writeConstraint (file : ByteWriter) (a b c : HashMap (List UInt8) ℤ) (fieldSize : ℕ) :
    Option (ℕ × ByteWriter) := do
  let (blockA, sizeA) ← obtainLinearCombinationBlock a fieldSize
  let (blockB, sizeB) ← obtainLinearCombinationBlock b fieldSize
  let (blockC, sizeC) ← obtainLinearCombinationBlock c fieldSize
  let file ← file.writeAll blockA
  let file ← file.writeAll blockB
  let file ← file.writeAll blockC
  some (sizeA + sizeB + sizeC, file)

def initializeFile (writer : ByteWriter) (numSections : UInt8) : Option ByteWriter := do
  let writer ← writer.writeAll magic
  let writer ← writer.writeAll version
  writer.writeAll [numSections, 0, 0, 0]

structure R1CSWriter where
  fieldSize : ℕ
  writer : ByteWriter

/-- A section that is being written; `HeaderSection`, `ConstraintSection` and so on. -/
structure Section where
  writer : ByteWriter
  goBack : ℕ
  size : ℕ
  fieldSize : ℕ

namespace R1CSWriter

def new (fieldSize : ℕ) (customGates : Bool) : Option R1CSWriter := do
  let numSections := if customGates then 5 else 3
  let writer ← initializeFile ByteWriter.empty numSections
  some { fieldSize := fieldSize, writer := writer }

def startSection (type : List UInt8) (r1cs : R1CSWriter) : Option Section := do
  let (start, writer) ← initializeSection r1cs.writer type
  some { writer := writer, goBack := start, size := 0, fieldSize := r1cs.fieldSize }

def startHeaderSection (r1cs : R1CSWriter) : Option Section := r1cs.startSection headerType

def startConstraintsSection (r1cs : R1CSWriter) : Option Section := r1cs.startSection constraintType

def startSignalSection (r1cs : R1CSWriter) : Option Section := r1cs.startSection wire2labelType

def startCustomGatesUsedSection (r1cs : R1CSWriter) : Option Section :=
  r1cs.startSection customGatesUsedType

def startCustomGatesAppliedSection (r1cs : R1CSWriter) : Option Section :=
  r1cs.startSection customGatesAppliedType

end R1CSWriter

structure HeaderData where
  field : ℤ
  totalWires : ℕ
  publicOutputs : ℕ
  publicInputs : ℕ
  privateInputs : ℕ
  numberOfLabels : ℕ
  numberOfConstraints : ℕ

/-- The fields behind the prime, with the bytes they get. -/
def HeaderData.dataStream (data : HeaderData) : List (ℕ × ℕ) :=
  [(data.totalWires, 4), (data.publicOutputs, 4), (data.publicInputs, 4), (data.privateInputs, 4),
    (data.numberOfLabels, 8), (data.numberOfConstraints, 4)]

abbrev Constraint := HashMap ℕ ℤ

abbrev CustomGatesUsedData := List (String × List ℤ)

abbrev CustomGatesAppliedData := List (ℕ × List ℕ)

namespace Section

def endSection (self : Section) : Option R1CSWriter := do
  let writer ← ConstraintWriters.endSection self.writer self.goBack self.size
  some { writer := writer, fieldSize := self.fieldSize }

/-- Writes bytes and counts them. -/
def put (self : Section) (data : List UInt8) (bytes : ℕ) : Option Section := do
  let writer ← self.writer.writeAll data
  some { self with writer := writer, size := self.size + bytes }

/-- Writes a number with at least the given number of bytes. -/
def putNumber (self : Section) (number : ℤ) (withBytes : ℕ) : Option Section :=
  let (stream, bytes) := bigintAsBytes number withBytes
  self.put stream bytes

/-- `HeaderSection::write_section`. -/
def writeSection (self : Section) (data : HeaderData) : Option Section := do
  let self ← self.putNumber self.fieldSize 4
  let self ← self.putNumber data.field self.fieldSize
  data.dataStream.foldlM (fun (self : Section) d => self.putNumber d.1 d.2) self

/-- The identifiers of the wires as bytes. -/
def keysAsBytes (map : Constraint) : HashMap (List UInt8) ℤ :=
  AList.ofPairs (map.pairs.map fun e => (toBytesLe e.1, e.2))

def writeConstraintUsize (self : Section) (a b c : Constraint) : Option Section := do
  let (size, writer) ←
    writeConstraint self.writer (keysAsBytes a) (keysAsBytes b) (keysAsBytes c) self.fieldSize
  some { self with writer := writer, size := self.size + size }

def writeSignal (self : Section) (bytes : List UInt8) : Option Section :=
  let (bytes, size) := intoFormat bytes 8
  self.put bytes size

def writeSignalUsize (self : Section) (signal : ℕ) : Option Section :=
  self.writeSignal (toBytesLe signal)

/-- The name of a gate, a zero byte, and the parameters. -/
def writeCustomGateUsage (self : Section) (customGate : String × List ℤ) : Option Section := do
  let stream := customGate.1.toByteArray.data.toList
  let self ← self.put stream stream.length
  let self ← self.put [0] 1
  let self ← self.putNumber customGate.2.length 4
  customGate.2.foldlM (fun (self : Section) parameter => self.putNumber parameter self.fieldSize) self

def writeCustomGatesUsages (self : Section) (data : CustomGatesUsedData) : Option Section := do
  let self ← self.putNumber data.length 4
  data.foldlM writeCustomGateUsage self

def writeCustomGateApplication (self : Section) (application : ℕ × List ℕ) : Option Section := do
  let self ← self.putNumber application.1 4
  let self ← self.putNumber application.2.length 4
  application.2.foldlM (fun (self : Section) (signal : ℕ) => self.putNumber signal 8) self

def writeCustomGatesApplications (self : Section) (data : CustomGatesAppliedData) :
    Option Section := do
  let self ← self.putNumber data.length 4
  data.foldlM writeCustomGateApplication self

end Section

/-! ## The order of `port_r1cs` -/

/-- The number of bytes of a field element: whole words of 64 bits. -/
def fieldSizeOf (field : ℤ) : ℕ :=
  let bits := Algebra.ModularArithmetic.bits field
  if bits % 64 = 0 then bits / 8 else (bits / 64 + 1) * 8

/-- What `port_r1cs` computes from a constraint list and writes. -/
structure R1CSContent where
  constraints : List (Constraint × Constraint × Constraint)
  headerData : HeaderData
  wires : List ℕ
  customGates : Bool
  usageData : CustomGatesUsedData
  applicationData : CustomGatesAppliedData

/-- The calls of `port_r1cs` on the writer. -/
def portR1cs (content : R1CSContent) : Option (List UInt8) := do
  let r1cs ← R1CSWriter.new (fieldSizeOf content.headerData.field) content.customGates
  let constraintSection ← r1cs.startConstraintsSection
  let constraintSection ← content.constraints.foldlM
    (fun (s : Section) c => s.writeConstraintUsize c.1 c.2.1 c.2.2) constraintSection
  let r1cs ← constraintSection.endSection
  let headerSection ← r1cs.startHeaderSection
  let headerSection ← headerSection.writeSection content.headerData
  let r1cs ← headerSection.endSection
  let signalSection ← r1cs.startSignalSection
  let signalSection ← content.wires.foldlM Section.writeSignalUsize signalSection
  let r1cs ← signalSection.endSection
  if !content.customGates then
    some r1cs.writer.bytes
  else do
    let customGatesUsedSection ← r1cs.startCustomGatesUsedSection
    let customGatesUsedSection ← customGatesUsedSection.writeCustomGatesUsages content.usageData
    let r1cs ← customGatesUsedSection.endSection
    let customGatesAppliedSection ← r1cs.startCustomGatesAppliedSection
    let customGatesAppliedSection ←
      customGatesAppliedSection.writeCustomGatesApplications content.applicationData
    let r1cs ← customGatesAppliedSection.endSection
    some r1cs.writer.bytes

end Circom.ConstraintWriters
