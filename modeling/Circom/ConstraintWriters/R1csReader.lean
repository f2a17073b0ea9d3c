import Circom.ConstraintWriters.R1csWriter

/-!
# Reading R1CS files

`r1cs_reader` of the crate `constraint_writers`. A panic is an error of its own.
-/

namespace Circom.ConstraintWriters.R1csReader

open Circom.Algebra.ModularArithmetic (toUsize)
open Circom.Lib (ByteReader HashMap Read ofBytesLe position readExact readTimes seekTo)

inductive R1CSParsingError where
  | invalidMagicNumber
  | invalidVersion
  | invalidSectionHeader
  | invalidSectionType
  | sectionNotPresent (name : String)
  deriving DecidableEq

/-- The text of an error. -/
def R1CSParsingError.display : R1CSParsingError → String
  | invalidMagicNumber => "Invalid magic number"
  | invalidVersion => "Invalid version"
  | invalidSectionHeader => "Invalid section header"
  | invalidSectionType => "Invalid section type"
  | sectionNotPresent name => "Section \"" ++ name ++ "\" not present"

inductive ReadError where
  | unexpectedEof
  | invalidInput
  | other (message : String)
  | panicked
  deriving DecidableEq

/-- `std::io::Error::new(ErrorKind::Other, error.to_string())`. -/
def ReadError.new (error : R1CSParsingError) : ReadError := .other error.display

/-- A value that is unwrapped. -/
def unwrap {α : Type} : Option α → Except ReadError α
  | some a => .ok a
  | none => .error .panicked

def fromFormat (bytes : List UInt8) : ℤ := ofBytesLe bytes

def readBigint (size : ℕ) : Read ReadError ℤ := do
  let buffer ← readExact .unexpectedEof size
  pure (fromFormat buffer)

/-- `read_bigint(reader, size)?.to_usize().unwrap()`. -/
def readUsize (size : ℕ) : Read ReadError ℕ := do
  let number ← readBigint size
  unwrap (toUsize number)

/-- `SeekFrom::Current`. -/
def seekCurrent (offset : ℤ) : Read ReadError Unit := fun reader =>
  if (reader.pos : ℤ) + offset < 0 then .error .invalidInput
  else seekTo (reader.pos + offset).toNat reader

def readSection (header : List UInt8) : Read ReadError ℕ := do
  let buffer ← readExact .unexpectedEof header.length
  if buffer ≠ header then throw (.new .invalidSectionHeader)
  else do
    let goBack ← position
    seekCurrent placeHolder.length
    pure goBack

def endSection (goBack : ℕ) : Read ReadError ℕ := do
  let goBack1 ← position
  seekTo goBack
  let size ← readUsize 8
  seekTo goBack1
  pure size

/-- A section from its start to its end: its type, its content, and its size once more. -/
def readWholeSection {α : Type} (header : List UInt8) (content : Read ReadError α) :
    Read ReadError α := do
  let goBack ← readSection header
  let data ← content
  let _ ← endSection goBack
  pure data

/-! ## The contents of the sections -/

structure HeaderData where
  field : ℤ
  fieldSize : ℕ
  totalWires : ℕ
  publicOutputs : ℕ
  publicInputs : ℕ
  privateInputs : ℕ
  numberOfLabels : ℕ
  numberOfConstraints : ℕ

/-- `HeaderSection::read_section`. -/
def readHeaderData : Read ReadError HeaderData := do
  let fieldSize ← readUsize 4
  let field ← readBigint fieldSize
  let totalWires ← readUsize 4
  let publicOutputs ← readUsize 4
  let publicInputs ← readUsize 4
  let privateInputs ← readUsize 4
  let numberOfLabels ← readUsize 8
  let numberOfConstraints ← readUsize 4
  pure ⟨field, fieldSize, totalWires, publicOutputs, publicInputs, privateInputs, numberOfLabels,
    numberOfConstraints⟩

def readFactor (fieldSize : ℕ) : Read ReadError (List UInt8 × ℤ) := do
  let id ← readExact .unexpectedEof 4
  let factor ← readBigint fieldSize
  pure (id, factor)

def readLinearCombinationBlock (fieldSize : ℕ) : Read ReadError (HashMap (List UInt8) ℤ) := do
  let nonZeroFactors ← readUsize 4
  let factors ← readTimes (readFactor fieldSize) nonZeroFactors
  pure (AList.ofPairs factors)

/-- The identifiers of the wires as numbers. -/
def keysAsUsize (map : HashMap (List UInt8) ℤ) : Except ReadError Constraint := do
  let pairs ← map.pairs.mapM fun (e : List UInt8 × ℤ) => do
    let id ← unwrap (toUsize (fromFormat e.1))
    .ok (id, e.2)
  .ok (AList.ofPairs pairs)

def readConstraint (fieldSize : ℕ) : Read ReadError (HashMap (List UInt8) ℤ ×
    HashMap (List UInt8) ℤ × HashMap (List UInt8) ℤ) := do
  let a ← readLinearCombinationBlock fieldSize
  let b ← readLinearCombinationBlock fieldSize
  let c ← readLinearCombinationBlock fieldSize
  pure (a, b, c)

def readConstraintUsize (fieldSize : ℕ) :
    Read ReadError (Constraint × Constraint × Constraint) := do
  let (a, b, c) ← readConstraint fieldSize
  let constraintA ← keysAsUsize a
  let constraintB ← keysAsUsize b
  let constraintC ← keysAsUsize c
  pure (constraintA, constraintB, constraintC)

def readSignalUsize : Read ReadError ℕ := readUsize 8

/-- The bytes up to the next zero byte, which is read as well; at most `fuel` bytes. -/
def readName : ℕ → Read ReadError (List UInt8)
  | 0 => throw .unexpectedEof
  | fuel + 1 => do
    let buffer ← readExact .unexpectedEof 1
    if buffer = [0] then pure []
    else do
      let name ← readName fuel
      pure (buffer ++ name)

/-- The loop ends at the end of the file at the latest. -/
def readNameBytes : Read ReadError (List UInt8) := fun reader =>
  readName (reader.bytes.length + 1) reader

def readCustomGateUsage (fieldSize : ℕ) : Read ReadError (String × List ℤ) := do
  let customGateName ← readNameBytes
  let customGateName ← unwrap (String.fromUTF8? ⟨⟨customGateName⟩⟩)
  let noCustomGateParameters ← readUsize 4
  let customGateParameters ← readTimes (readBigint fieldSize) noCustomGateParameters
  pure (customGateName, customGateParameters)

def readCustomGatesUsages (fieldSize : ℕ) : Read ReadError CustomGatesUsedData := do
  let noCustomGates ← readUsize 4
  readTimes (readCustomGateUsage fieldSize) noCustomGates

def readCustomGateApplication : Read ReadError (ℕ × List ℕ) := do
  let customGateIndex ← readUsize 4
  let noCustomGateSignals ← readUsize 4
  let customGateSignals ← readTimes (readUsize 8) noCustomGateSignals
  pure (customGateIndex, customGateSignals)

def readCustomGatesApplications : Read ReadError CustomGatesAppliedData := do
  let noCustomGateApplications ← readUsize 4
  readTimes readCustomGateApplication noCustomGateApplications

/-! ## The file -/

structure R1CSData where
  headerData : HeaderData
  constraints : List (Constraint × Constraint × Constraint)
  signals : List ℕ
  customGates : Bool
  customGatesUsedData : Option CustomGatesUsedData
  customGatesAppliedData : Option CustomGatesAppliedData

/-- Returns the bytes that hold the number of sections. -/
def readInitialization : Read ReadError (List UInt8) := do
  let buffer ← readExact .unexpectedEof magic.length
  if buffer ≠ magic then throw (.new .invalidMagicNumber)
  else do
    let buffer ← readExact .unexpectedEof version.length
    if buffer ≠ version then throw (.new .invalidVersion)
    else readExact .unexpectedEof 4

/-- `as i64`. -/
def toI64 (n : ℕ) : ℤ := if n < 2 ^ 63 then n else n - 2 ^ 64

/-- The loop that finds the beginning of each section. -/
def scanSections (nSections : ℕ) : ℕ → ℤ → HashMap ℕ ℕ → Read ReadError (HashMap ℕ ℕ)
  | 0, _, sectionStarts => pure sectionStarts
  | n + 1, currentOffset, sectionStarts => do
    seekCurrent currentOffset
    let newOffset ← position
    let buffer ← readExact .unexpectedEof 4
    let sectionType := (buffer.headD 0).toNat
    let sectionSize ← readUsize 8
    if 1 ≤ sectionType ∧ sectionType ≤ nSections then
      scanSections nSections n (toI64 sectionSize) (sectionStarts.insert sectionType newOffset)
    else throw (.new .invalidSectionType)

/-- Reads the section of a type where it starts. -/
def readAt {α : Type} (starts : HashMap ℕ ℕ) (sectionType : ℕ) (name : String)
    (read : Read ReadError α) : Read ReadError α :=
  match starts.lookup sectionType with
  | some start => do
    seekTo start
    read
  | none => throw (.new (.sectionNotPresent name))

def readSections (customGates : Bool) (starts : HashMap ℕ ℕ) : Read ReadError R1CSData := do
  let headerData ← readAt starts 1 "Header" (readWholeSection headerType readHeaderData)
  -- the size of the field is known from here on
  let fieldSize := headerData.fieldSize
  let constraints ← readAt starts 2 "Constraints" (readWholeSection constraintType
    (readTimes (readConstraintUsize fieldSize) headerData.numberOfConstraints))
  let signals ← readAt starts 3 "Signals" (readWholeSection wire2labelType
    (readTimes readSignalUsize headerData.totalWires))
  if customGates then do
    let usedData ← readAt starts 4 "Custom Gates Used"
      (readWholeSection customGatesUsedType (readCustomGatesUsages fieldSize))
    let appliedData ← readAt starts 5 "Custom Gates Applied"
      (readWholeSection customGatesAppliedType readCustomGatesApplications)
    pure ⟨headerData, constraints, signals, customGates, some usedData, some appliedData⟩
  else pure ⟨headerData, constraints, signals, customGates, none, none⟩

def readR1cs (bytes : List UInt8) : Except ReadError R1CSData := do
  let (buffer, reader) ← readInitialization ⟨bytes, 0⟩
  let nSections := (buffer.headD 0).toNat
  let customGates := nSections = 5
  let (sectionStarts, reader) ← scanSections nSections nSections 0 ∅ reader
  let (info, _) ← readSections customGates sectionStarts reader
  .ok info

end Circom.ConstraintWriters.R1csReader
