import Circom.ConstraintWriters.Proofs.Format
import Circom.ConstraintWriters.R1csReader

/-!
# The reader understands the format

Each function of the reader finds in the bytes of the format what they encode.
-/

namespace Circom.ConstraintWriters.R1csReader

open Circom.Algebra.ModularArithmetic (toUsize)
open Circom.Lib (HashMap Read Reads bind_of_ok encodeLe length_encodeLe ofBytesLe ofBytesLe_encodeLe
  ofBytesLe_padTo ofBytesLe_toBytesLe length_padTo length_toBytesLe_le padTo readExact readTimes
  reads_lift reads_pure reads_readExact reads_readTimes toBytesLe)
open Circom.Lib.ByteWriter (maxSize)

/-! ## Numbers -/

theorem toUsize_natCast {n : ℕ} (h : n < 2 ^ 64) : toUsize n = some n := by
  have hrange : (0 : ℤ) ≤ n ∧ (n : ℤ) < 2 ^ 64 := by
    constructor
    · omega
    · exact_mod_cast h
  rw [toUsize, if_pos hrange, Int.toNat_natCast]

theorem reads_readBigint {size n : ℕ} (hsize : 0 < size) (h : n < 256 ^ size) :
    Reads (readBigint size) (encodeLe size n) (n : ℤ) := by
  have hread := (reads_readExact ReadError.unexpectedEof (length_encodeLe hsize h)).map fromFormat
  have hvalue : fromFormat (encodeLe size n) = n := by rw [fromFormat, ofBytesLe_encodeLe]
  rw [hvalue] at hread
  exact hread

/-- A number that is not negative. -/
theorem reads_readBigint_natAbs {size : ℕ} {number : ℤ} (hsize : 0 < size) (hn : 0 ≤ number)
    (h : number < 256 ^ size) : Reads (readBigint size) (encodeLe size number.natAbs) number := by
  obtain ⟨n, rfl⟩ := Int.eq_ofNat_of_zero_le hn
  exact reads_readBigint hsize (by exact_mod_cast h)

theorem reads_readUsize {size n : ℕ} (hsize : 0 < size) (hle : size ≤ 8) (h : n < 256 ^ size) :
    Reads (readUsize size) (encodeLe size n) n := by
  have hword : n < 2 ^ 64 := h.trans_le ((Nat.pow_le_pow_right (by decide) hle).trans (by norm_num))
  refine (reads_readBigint hsize h).lift (k := fun number => unwrap (toUsize number)) ?_
  rw [toUsize_natCast hword]
  rfl

/-! ## Linear combinations -/

/-- The entries with the bytes of their identifiers as the file has them. -/
def paddedFactors (c : Constraint) : List (List UInt8 × ℤ) :=
  (factors (Section.keysAsBytes c)).map fun e => (padTo 4 e.1, e.2)

/-- The linear combination that is read back. -/
def readBack (c : Constraint) : Constraint :=
  AList.ofPairs ((AList.ofPairs (paddedFactors c)).pairs.map fun e => (ofBytesLe e.1, e.2))

/-- Identifiers and coefficients fit into their fields. -/
def FitsBlock (fieldSize : ℕ) (c : Constraint) : Prop :=
  c.len < 2 ^ 32 ∧ ∀ e ∈ c.pairs, e.1 < 2 ^ 32 ∧ 0 ≤ e.2 ∧ e.2 < 256 ^ fieldSize

theorem keysAsBytes_perm (c : Constraint) :
    (Section.keysAsBytes c).pairs.Perm (c.pairs.map fun e => (toBytesLe e.1, e.2)) := by
  apply AList.entries_ofPairs_perm
  have hkeys : (c.pairs.map fun e => (toBytesLe e.1, e.2)).map Prod.fst = c.keys.map toBytesLe := by
    rw [← AList.pairs_map_fst, List.map_map, List.map_map]
    rfl
  rw [hkeys]
  exact c.keys_nodup.map Circom.Lib.toBytesLe_injective

theorem paddedFactors_perm (c : Constraint) :
    (paddedFactors c).Perm (c.pairs.map fun e => (padTo 4 (toBytesLe e.1), e.2)) := by
  have hperm := ((factors_perm _).trans (keysAsBytes_perm c)).map
    fun e : List UInt8 × ℤ => (padTo 4 e.1, e.2)
  rw [List.map_map] at hperm
  exact hperm

theorem nodup_paddedFactors (c : Constraint) : ((paddedFactors c).map Prod.fst).Nodup := by
  rw [((paddedFactors_perm c).map Prod.fst).nodup_iff, List.map_map]
  have hinj : Function.Injective fun n => padTo 4 (toBytesLe n) := by
    apply Function.LeftInverse.injective (g := ofBytesLe)
    intro n
    rw [ofBytesLe_padTo, ofBytesLe_toBytesLe]
  have hkeys := c.keys_nodup.map hinj
  rw [← AList.pairs_map_fst, List.map_map] at hkeys
  exact hkeys

/-- The identifiers of the entries come back in some order. -/
theorem readBack_perm (c : Constraint) :
    ((AList.ofPairs (paddedFactors c)).pairs.map fun e => (ofBytesLe e.1, e.2)).Perm c.pairs := by
  have hperm := ((AList.entries_ofPairs_perm (nodup_paddedFactors c)).trans
    (paddedFactors_perm c)).map fun e : List UInt8 × ℤ => (ofBytesLe e.1, e.2)
  rw [List.map_map] at hperm
  refine hperm.trans (List.Perm.of_eq ?_)
  refine (List.map_congr_left ?_).trans (List.map_id _)
  intro e _
  show (ofBytesLe (padTo 4 (toBytesLe e.1)), e.2) = e
  rw [ofBytesLe_padTo, ofBytesLe_toBytesLe]

theorem toFinmap_readBack (c : Constraint) : (readBack c).toFinmap = c.toFinmap := by
  rw [AList.toFinmap_eq_iff_lookup]
  intro k
  have hnodup : (((AList.ofPairs (paddedFactors c)).pairs.map
      fun e => (ofBytesLe e.1, e.2)).map Prod.fst).Nodup := by
    rw [((readBack_perm c).map Prod.fst).nodup_iff, AList.pairs_map_fst]
    exact c.keys_nodup
  ext v
  rw [readBack, AList.lookup_ofPairs hnodup, (readBack_perm c).mem_iff,
    AList.mem_pairs_iff_lookup]

/-- What one entry in the file says about its number. -/
theorem mem_paddedFactors {fieldSize : ℕ} {c : Constraint} (hc : FitsBlock fieldSize c)
    {e : List UInt8 × ℤ} (he : e ∈ paddedFactors c) :
    e.1.length = 4 ∧ ofBytesLe e.1 < 2 ^ 32 ∧ 0 ≤ e.2 ∧ e.2 < 256 ^ fieldSize := by
  rw [(paddedFactors_perm c).mem_iff, List.mem_map] at he
  obtain ⟨e', he', rfl⟩ := he
  obtain ⟨hid, hcoefficient⟩ := hc.2 e' he'
  refine ⟨length_padTo (length_toBytesLe_le (by decide) ?_), ?_, hcoefficient⟩
  · exact hid.trans_le (by norm_num)
  · rw [ofBytesLe_padTo, ofBytesLe_toBytesLe]
    exact hid

theorem reads_readFactor {fieldSize : ℕ} {e : List UInt8 × ℤ} (hsize : 0 < fieldSize)
    (hid : e.1.length = 4) (hnonneg : 0 ≤ e.2) (hlt : e.2 < 256 ^ fieldSize) :
    Reads (readFactor fieldSize) (e.1 ++ encodeLe fieldSize e.2.natAbs) e := by
  unfold readFactor
  refine (reads_readExact _ hid).bind ?_
  exact (reads_readBigint_natAbs hsize hnonneg hlt).map fun factor => (e.1, factor)

theorem blockBytes_eq (fieldSize : ℕ) (c : Constraint) :
    blockBytes fieldSize (Section.keysAsBytes c) =
      encodeLe 4 (paddedFactors c).length ++
        (paddedFactors c).flatMap fun e => e.1 ++ encodeLe fieldSize e.2.natAbs := by
  have hlength : (paddedFactors c).length = (Section.keysAsBytes c).len := by
    rw [paddedFactors, List.length_map, (factors_perm _).length_eq]
    simp [AList.pairs, AList.len]
  rw [blockBytes, hlength, paddedFactors, List.flatMap_map]
  rfl

theorem length_paddedFactors (c : Constraint) : (paddedFactors c).length = c.len := by
  rw [(paddedFactors_perm c).length_eq, List.length_map]
  simp [AList.pairs, AList.len]

theorem reads_readLinearCombinationBlock {fieldSize : ℕ} {c : Constraint} (hsize : 0 < fieldSize)
    (hc : FitsBlock fieldSize c) :
    Reads (readLinearCombinationBlock fieldSize) (blockBytes fieldSize (Section.keysAsBytes c))
      (AList.ofPairs (paddedFactors c)) := by
  have hfactors : Reads (readTimes (readFactor fieldSize) (paddedFactors c).length)
      ((paddedFactors c).flatMap fun e => e.1 ++ encodeLe fieldSize e.2.natAbs)
      ((paddedFactors c).map id) := by
    apply reads_readTimes
    intro e he
    obtain ⟨hid, -, hnonneg, hlt⟩ := mem_paddedFactors hc he
    exact reads_readFactor hsize hid hnonneg hlt
  have hcount : (paddedFactors c).length < 256 ^ 4 := by
    rw [length_paddedFactors]
    exact hc.1.trans_le (by norm_num)
  rw [List.map_id] at hfactors
  rw [blockBytes_eq]
  unfold readLinearCombinationBlock
  refine (reads_readUsize (by decide) (by decide) hcount).bind ?_
  exact hfactors.map AList.ofPairs

theorem keysAsUsize_eq {fieldSize : ℕ} {c : Constraint} (hc : FitsBlock fieldSize c) :
    keysAsUsize (AList.ofPairs (paddedFactors c)) = .ok (readBack c) := by
  have hall : ∀ l : List (List UInt8 × ℤ), (∀ e ∈ l, ofBytesLe e.1 < 2 ^ 32) →
      l.mapM (fun (e : List UInt8 × ℤ) => (do
        let id ← unwrap (toUsize (fromFormat e.1))
        .ok (id, e.2) : Except ReadError (ℕ × ℤ))) = .ok (l.map fun e => (ofBytesLe e.1, e.2)) := by
    intro l
    induction l with
    | nil =>
      intro _
      rfl
    | cons e l ih =>
      intro h
      have hid : ofBytesLe e.1 < 2 ^ 64 := (h e List.mem_cons_self).trans (by norm_num)
      have htail := ih fun e' he' => h e' (List.mem_cons_of_mem e he')
      rw [List.mapM_cons, htail, fromFormat, toUsize_natCast hid]
      rfl
  have hids : ∀ e ∈ (AList.ofPairs (paddedFactors c)).pairs, ofBytesLe e.1 < 2 ^ 32 := by
    intro e he
    rw [(AList.entries_ofPairs_perm (nodup_paddedFactors c)).mem_iff] at he
    exact (mem_paddedFactors hc he).2.1
  rw [keysAsUsize, hall _ hids]
  rfl

/-- All three linear combinations fit. -/
def FitsConstraint (fieldSize : ℕ) (c : Constraint × Constraint × Constraint) : Prop :=
  FitsBlock fieldSize c.1 ∧ FitsBlock fieldSize c.2.1 ∧ FitsBlock fieldSize c.2.2

theorem reads_readConstraintUsize {fieldSize : ℕ} {c : Constraint × Constraint × Constraint}
    (hsize : 0 < fieldSize) (hc : FitsConstraint fieldSize c) :
    Reads (readConstraintUsize fieldSize) (constraintBytes fieldSize c)
      (readBack c.1, readBack c.2.1, readBack c.2.2) := by
  obtain ⟨ha, hb, hc⟩ := hc
  have hblocks : Reads (readConstraint fieldSize) (constraintBytes fieldSize c)
      (AList.ofPairs (paddedFactors c.1), AList.ofPairs (paddedFactors c.2.1),
        AList.ofPairs (paddedFactors c.2.2)) := by
    unfold readConstraint constraintBytes
    refine (reads_readLinearCombinationBlock hsize ha).bind ?_
    refine (reads_readLinearCombinationBlock hsize hb).bind ?_
    exact (reads_readLinearCombinationBlock hsize hc).map _
  rw [← List.append_nil (constraintBytes fieldSize c)]
  refine hblocks.bind ?_
  show Reads _ ([] ++ ([] ++ [])) _
  refine (reads_lift (keysAsUsize_eq ha)).bind ?_
  refine (reads_lift (keysAsUsize_eq hb)).bind ?_
  exact (reads_lift (keysAsUsize_eq hc)).map _

/-! ## The other contents -/

theorem reads_readHeaderData {fieldSize : ℕ} {data : ConstraintWriters.HeaderData}
    (hsize : 0 < fieldSize) (hword : fieldSize < 2 ^ 32) (hfield : 0 ≤ data.field)
    (hlt : data.field < 256 ^ fieldSize) (hdata : ∀ d ∈ data.dataStream, d.1 < 256 ^ d.2) :
    Reads readHeaderData (headerBytes fieldSize data)
      ⟨data.field, fieldSize, data.totalWires, data.publicOutputs, data.publicInputs,
        data.privateInputs, data.numberOfLabels, data.numberOfConstraints⟩ := by
  have hword4 : fieldSize < 256 ^ 4 := hword.trans_le (by norm_num)
  simp only [HeaderData.dataStream, List.mem_cons, List.not_mem_nil, or_false,
    forall_eq_or_imp, forall_eq] at hdata
  obtain ⟨h1, h2, h3, h4, h5, h6⟩ := hdata
  simp only [headerBytes, HeaderData.dataStream, List.flatMap_cons, List.flatMap_nil,
    List.append_nil]
  unfold readHeaderData
  refine (reads_readUsize (by decide) (by decide) hword4).bind ?_
  refine (reads_readBigint_natAbs hsize hfield hlt).bind ?_
  refine (reads_readUsize (by decide) (by decide) h1).bind ?_
  refine (reads_readUsize (by decide) (by decide) h2).bind ?_
  refine (reads_readUsize (by decide) (by decide) h3).bind ?_
  refine (reads_readUsize (by decide) (by decide) h4).bind ?_
  refine (reads_readUsize (by decide) (by decide) h5).bind ?_
  exact (reads_readUsize (by decide) (by decide) h6).map _

theorem reads_readSignals {signals : List ℕ} (h : ∀ signal ∈ signals, signal < 2 ^ 64) :
    Reads (readTimes (readUsize 8) signals.length) (signals.flatMap (encodeLe 8)) signals := by
  have hread : Reads (readTimes (readUsize 8) signals.length) (signals.flatMap (encodeLe 8))
      (signals.map id) := by
    apply reads_readTimes
    intro signal hsignal
    exact reads_readUsize (by decide) (by decide) ((h signal hsignal).trans_le (by norm_num))
  rwa [List.map_id] at hread

theorem reads_readName {name : List UInt8} (hname : 0 ∉ name) {fuel : ℕ}
    (hfuel : name.length < fuel) : Reads (readName fuel) (name ++ [0]) name := by
  induction name generalizing fuel with
  | nil =>
    obtain ⟨fuel, rfl⟩ := Nat.exists_eq_add_one.mpr hfuel
    have hread : Reads (readExact ReadError.unexpectedEof 1) [0] [0] := reads_readExact _ rfl
    exact hread.bind (reads_pure [])
  | cons byte name ih =>
    obtain ⟨fuel, rfl⟩ := Nat.exists_eq_add_one.mpr (Nat.zero_lt_of_lt hfuel)
    rw [List.mem_cons, not_or] at hname
    have htail := ih hname.2 (Nat.lt_of_succ_lt_succ hfuel)
    have hread : Reads (readExact ReadError.unexpectedEof 1) [byte] [byte] := reads_readExact _ rfl
    show Reads _ ([byte] ++ (name ++ [0])) _
    refine hread.bind ?_
    have hzero : ¬ [byte] = [0] := by
      intro h
      exact hname.1 (List.cons.inj h).1.symm
    rw [if_neg hzero]
    exact htail.map ([byte] ++ ·)

theorem reads_readNameBytes {name : List UInt8} (hname : 0 ∉ name) :
    Reads readNameBytes (name ++ [0]) name := by
  intro pre post
  refine reads_readName hname ?_ pre post
  simp only [List.length_append]
  omega

/-- The name and the parameters of a gate fit. -/
def FitsUsage (fieldSize : ℕ) (usage : String × List ℤ) : Prop :=
  0 ∉ nameBytes usage.1 ∧ usage.2.length < 2 ^ 32 ∧
    ∀ parameter ∈ usage.2, 0 ≤ parameter ∧ parameter < 256 ^ fieldSize

theorem reads_readCustomGateUsage {fieldSize : ℕ} {usage : String × List ℤ} (hsize : 0 < fieldSize)
    (h : FitsUsage fieldSize usage) :
    Reads (readCustomGateUsage fieldSize) (usageBytes fieldSize usage) usage := by
  obtain ⟨hname, hcount, hparameters⟩ := h
  have htext : unwrap (String.fromUTF8? ⟨⟨nameBytes usage.1⟩⟩) = .ok usage.1 := by
    show unwrap (String.fromUTF8? usage.1.toByteArray) = _
    rw [String.fromUTF8?, dif_pos usage.1.isValidUTF8]
    rfl
  have hread : Reads (readTimes (readBigint fieldSize) usage.2.length)
      (usage.2.flatMap fun parameter => encodeLe fieldSize parameter.natAbs)
      (usage.2.map id) := by
    apply reads_readTimes
    intro parameter hparameter
    obtain ⟨hnonneg, hlt⟩ := hparameters parameter hparameter
    exact reads_readBigint_natAbs hsize hnonneg hlt
  rw [List.map_id] at hread
  have hcount : usage.2.length < 256 ^ 4 := hcount.trans_le (by norm_num)
  rw [usageBytes, ← List.append_assoc]
  refine (reads_readNameBytes hname).bind ?_
  show Reads _ ([] ++ _) _
  refine (reads_lift htext).bind ?_
  refine (reads_readUsize (by decide) (by decide) hcount).bind ?_
  exact hread.map _

theorem reads_readCustomGatesUsages {fieldSize : ℕ} {data : CustomGatesUsedData}
    (hsize : 0 < fieldSize) (hcount : data.length < 2 ^ 32)
    (h : ∀ usage ∈ data, FitsUsage fieldSize usage) :
    Reads (readCustomGatesUsages fieldSize) (usagesBytes fieldSize data) data := by
  have hread : Reads (readTimes (readCustomGateUsage fieldSize) data.length)
      (data.flatMap (usageBytes fieldSize)) (data.map id) := by
    apply reads_readTimes
    intro usage husage
    exact reads_readCustomGateUsage hsize (h usage husage)
  rw [List.map_id] at hread
  exact (reads_readUsize (by decide) (by decide) (hcount.trans_le (by norm_num))).bind hread

/-- The numbers of an application fit. -/
def FitsApplication (application : ℕ × List ℕ) : Prop :=
  application.1 < 2 ^ 32 ∧ application.2.length < 2 ^ 32 ∧
    ∀ signal ∈ application.2, signal < 2 ^ 64

theorem reads_readCustomGateApplication {application : ℕ × List ℕ}
    (h : FitsApplication application) :
    Reads readCustomGateApplication (applicationBytes application) application := by
  obtain ⟨hindex, hcount, hsignals⟩ := h
  have hindex : application.1 < 256 ^ 4 := hindex.trans_le (by norm_num)
  have hcount : application.2.length < 256 ^ 4 := hcount.trans_le (by norm_num)
  refine (reads_readUsize (by decide) (by decide) hindex).bind ?_
  refine (reads_readUsize (by decide) (by decide) hcount).bind ?_
  exact (reads_readSignals hsignals).map _

theorem reads_readCustomGatesApplications {data : CustomGatesAppliedData}
    (hcount : data.length < 2 ^ 32) (h : ∀ application ∈ data, FitsApplication application) :
    Reads readCustomGatesApplications (applicationsBytes data) data := by
  have hread : Reads (readTimes readCustomGateApplication data.length)
      (data.flatMap applicationBytes) (data.map id) := by
    apply reads_readTimes
    intro application happlication
    exact reads_readCustomGateApplication (h application happlication)
  rw [List.map_id] at hread
  exact (reads_readUsize (by decide) (by decide) (hcount.trans_le (by norm_num))).bind hread

/-! ## Sections -/

theorem length_content_lt {part : Part} (h : part.content.length < maxSize) :
    part.content.length < 256 ^ 8 := by
  unfold maxSize at h
  omega

theorem seekCurrent_eq {file : List UInt8} {pos stop : ℕ} {offset : ℤ}
    (h : (pos : ℤ) + offset = stop) : seekCurrent offset ⟨file, pos⟩ = .ok ((), ⟨file, stop⟩) := by
  have hforward : ¬ (pos : ℤ) + offset < 0 := by omega
  rw [seekCurrent, if_neg hforward, h, Int.toNat_natCast]
  rfl

/-- Behind the type of a section the reader jumps over the size. -/
theorem readSection_eq (part : Part) {file pre post : List UInt8}
    (hfile : file = pre ++ part.header ++ post) :
    readSection part.header ⟨file, pre.length⟩ =
      .ok (pre.length + 4, ⟨file, pre.length + 12⟩) := by
  have hheader : readExact ReadError.unexpectedEof part.header.length ⟨file, pre.length⟩ =
      .ok (part.header, ⟨file, pre.length + 4⟩) := (reads_readExact _ rfl).eq_ok hfile rfl rfl
  have hjump : ((pre.length + 4 : ℕ) : ℤ) + (placeHolder.length : ℕ) = (pre.length + 12 : ℕ) := rfl
  rw [readSection, bind_of_ok hheader, if_neg (not_not_intro rfl), bind_of_ok rfl,
    bind_of_ok (seekCurrent_eq hjump)]
  rfl

/-- At the end of a section its size is found, and the reader stays where it was. -/
theorem endSection_eq {size : ℕ} (hsize : size < 256 ^ 8) {file pre post : List UInt8}
    (hfile : file = pre ++ encodeLe 8 size ++ post) {goBack : ℕ} (hback : goBack = pre.length)
    (pos : ℕ) : endSection goBack ⟨file, pos⟩ = .ok (size, ⟨file, pos⟩) := by
  have hnumber := (reads_readUsize (by decide) (by decide) hsize).eq_ok hfile hback rfl
  rw [endSection, bind_of_ok rfl, bind_of_ok rfl, bind_of_ok hnumber]
  rfl

theorem reads_readWholeSection {α : Type} {part : Part} {content : Read ReadError α} {a : α}
    (h : Reads content part.content a) (hsize : part.content.length < maxSize) :
    Reads (readWholeSection part.header content) part.bytes a := by
  have hword := length_content_lt hsize
  have hwidth : (encodeLe 8 part.content.length).length = 8 := length_encodeLe (by decide) hword
  intro pre post
  have hlength : (pre ++ part.header).length = pre.length + 4 := List.length_append
  have hlength8 : (pre ++ part.header ++ encodeLe 8 part.content.length).length =
      pre.length + 12 := by rw [List.length_append, hlength, hwidth]
  have htotal : pre.length + part.bytes.length = pre.length + 12 + part.content.length := by
    rw [← hlength8, ← List.length_append, ← List.length_append, Part.bytes]
    simp only [List.append_assoc]
  -- the same file, cut at each of its borders
  have hheader : pre ++ part.bytes ++ post = pre ++ part.header ++
      (encodeLe 8 part.content.length ++ part.content ++ post) := by
    simp only [Part.bytes, List.append_assoc]
  have hnumber : pre ++ part.bytes ++ post = pre ++ part.header ++
      encodeLe 8 part.content.length ++ (part.content ++ post) := by
    simp only [Part.bytes, List.append_assoc]
  have hdata : pre ++ part.bytes ++ post = pre ++ part.header ++
      encodeLe 8 part.content.length ++ part.content ++ post := by
    simp only [Part.bytes, List.append_assoc]
  rw [readWholeSection, bind_of_ok (readSection_eq part hheader),
    bind_of_ok (h.eq_ok hdata hlength8.symm htotal),
    bind_of_ok (endSection_eq hword hnumber hlength.symm _)]
  rfl

/-! ## Finding the sections -/

/-- Where the sections start, when the first one starts at `pos`. -/
def partStarts : ℕ → List Part → HashMap ℕ ℕ → HashMap ℕ ℕ
  | _, [], starts => starts
  | pos, part :: parts, starts =>
    partStarts (pos + part.bytes.length) parts (starts.insert part.type.toNat pos)

theorem toI64_of_lt {n : ℕ} (h : n < maxSize) : toI64 n = n := by
  unfold maxSize at h
  rw [toI64, if_pos h]

theorem scanSections_parts {nSections : ℕ} {parts : List Part}
    (h : ∀ part ∈ parts, 1 ≤ part.type.toNat ∧ part.type.toNat ≤ nSections ∧
      part.content.length < maxSize)
    {file pre : List UInt8} (hfile : file = pre ++ parts.flatMap Part.bytes) {pos : ℕ} {offset : ℤ}
    (hpos : (pos : ℤ) + offset = pre.length) (starts : HashMap ℕ ℕ) :
    ∃ pos', scanSections nSections parts.length offset starts ⟨file, pos⟩ =
      .ok (partStarts pre.length parts starts, ⟨file, pos'⟩) := by
  induction parts generalizing pre pos offset starts with
  | nil => exact ⟨pos, rfl⟩
  | cons part parts ih =>
    obtain ⟨hlow, hhigh, hsize⟩ := h part List.mem_cons_self
    have hword := length_content_lt hsize
    have hwidth : (encodeLe 8 part.content.length).length = 8 := length_encodeLe (by decide) hword
    have hlength : (pre ++ part.header).length = pre.length + 4 := List.length_append
    have hheader : file = pre ++ part.header ++ (encodeLe 8 part.content.length ++
        part.content ++ parts.flatMap Part.bytes) := by
      simp only [hfile, Part.bytes, List.flatMap_cons, List.append_assoc]
    have hnumber : file = pre ++ part.header ++ encodeLe 8 part.content.length ++
        (part.content ++ parts.flatMap Part.bytes) := by
      simp only [hfile, Part.bytes, List.flatMap_cons, List.append_assoc]
    have hrest : file = pre ++ part.bytes ++ parts.flatMap Part.bytes := by
      rw [hfile, List.flatMap_cons, List.append_assoc]
    have hnext : ((pre.length + 12 : ℕ) : ℤ) + toI64 part.content.length =
        (pre ++ part.bytes).length := by
      rw [toI64_of_lt hsize, Part.bytes]
      simp only [List.length_append, hwidth]
      have hfour : part.header.length = 4 := rfl
      omega
    have htype : readExact ReadError.unexpectedEof 4 ⟨file, pre.length⟩ =
        .ok (part.header, ⟨file, pre.length + 4⟩) := (reads_readExact _ rfl).eq_ok hheader rfl rfl
    have hread : readUsize 8 ⟨file, pre.length + 4⟩ =
        .ok (part.content.length, ⟨file, pre.length + 12⟩) := by
      refine (reads_readUsize (by decide) (by decide) hword).eq_ok hnumber hlength.symm ?_
      rw [hwidth]
    obtain ⟨pos', htail⟩ := ih (fun p hp => h p (List.mem_cons_of_mem part hp)) hrest hnext
      (starts.insert part.type.toNat pre.length)
    have hbytes : (pre ++ part.bytes).length = pre.length + part.bytes.length := List.length_append
    rw [hbytes] at htail
    refine ⟨pos', ?_⟩
    rw [List.length_cons, scanSections, bind_of_ok (seekCurrent_eq hpos), bind_of_ok rfl,
      bind_of_ok htype, bind_of_ok hread]
    show (if 1 ≤ part.type.toNat ∧ part.type.toNat ≤ nSections then _ else _ :
      Read ReadError (HashMap ℕ ℕ)) _ = _
    rw [if_pos ⟨hlow, hhigh⟩]
    exact htail

end Circom.ConstraintWriters.R1csReader
