import Mathlib.Data.Nat.Digits.Lemmas

/-!
# Little endian numbers

A natural number as the list of its bytes, the lowest one first, and an integer as the shortest list of
bytes in two's complement.
-/

namespace Circom.Lib

/-- The bytes of a number without leading zeros; zero has one byte. -/
def toBytesLe (n : ℕ) : List UInt8 := if n = 0 then [0] else (Nat.digits 256 n).map UInt8.ofNat

def ofBytesLe (bytes : List UInt8) : ℕ := Nat.ofDigits 256 (bytes.map UInt8.toNat)

/-- Fills up with zero bytes to the given length; longer lists stay as they are. -/
def padTo (width : ℕ) (bytes : List UInt8) : List UInt8 :=
  bytes ++ List.replicate (width - bytes.length) 0

theorem ofBytesLe_padTo (width : ℕ) (bytes : List UInt8) :
    ofBytesLe (padTo width bytes) = ofBytesLe bytes := by
  have hzero : UInt8.toNat 0 = 0 := rfl
  rw [ofBytesLe, padTo, List.map_append, List.map_replicate, hzero,
    Nat.ofDigits_append_replicate_zero]
  rfl

@[simp] theorem ofBytesLe_toBytesLe (n : ℕ) : ofBytesLe (toBytesLe n) = n := by
  unfold toBytesLe
  split_ifs with h
  · rw [h]
    rfl
  · have hdigits : ((Nat.digits 256 n).map UInt8.ofNat).map UInt8.toNat = Nat.digits 256 n := by
      rw [List.map_map]
      refine (List.map_congr_left ?_).trans (List.map_id _)
      intro d hd
      have hlt : d < 256 := Nat.digits_lt_base (by decide) hd
      exact UInt8.toNat_ofNat_of_lt hlt
    rw [ofBytesLe, hdigits, Nat.ofDigits_digits]

theorem length_toBytesLe_le {n width : ℕ} (hw : 0 < width) (h : n < 256 ^ width) :
    (toBytesLe n).length ≤ width := by
  unfold toBytesLe
  split_ifs with h0
  · exact hw
  · rw [List.length_map]
    exact (Nat.digits_length_le_iff (by decide) n).mpr h

theorem length_padTo {width : ℕ} {bytes : List UInt8} (h : bytes.length ≤ width) :
    (padTo width bytes).length = width := by
  rw [padTo, List.length_append, List.length_replicate]
  omega

theorem toBytesLe_injective : Function.Injective toBytesLe :=
  Function.LeftInverse.injective ofBytesLe_toBytesLe

/-- A number in a given number of bytes, or in more where it has more. -/
def encodeLe (width n : ℕ) : List UInt8 := padTo width (toBytesLe n)

@[simp] theorem ofBytesLe_encodeLe (width n : ℕ) : ofBytesLe (encodeLe width n) = n := by
  rw [encodeLe, ofBytesLe_padTo, ofBytesLe_toBytesLe]

theorem length_encodeLe {width n : ℕ} (hw : 0 < width) (h : n < 256 ^ width) :
    (encodeLe width n).length = width :=
  length_padTo (length_toBytesLe_le hw h)

/-! ## Two's complement -/

/-- The top bit of the last byte is the sign: a byte is enough from -128 to 127. -/
def toSignedBytesLe (z : ℤ) : List UInt8 :=
  if -128 ≤ z ∧ z < 128 then [UInt8.ofNat (z % 256).toNat]
  else UInt8.ofNat (z % 256).toNat :: toSignedBytesLe (z / 256)
termination_by z.natAbs
decreasing_by omega

def ofSignedBytesLe : List UInt8 → ℤ
  | [] => 0
  | [b] => if b.toNat < 128 then b.toNat else b.toNat - 256
  | b :: bytes => b.toNat + 256 * ofSignedBytesLe bytes

theorem toNat_lowByte (z : ℤ) : ((UInt8.ofNat (z % 256).toNat).toNat : ℤ) = z % 256 := by
  rw [UInt8.toNat_ofNat_of_lt' (show (z % 256).toNat < 256 by omega)]
  omega

theorem toSignedBytesLe_ne_nil (z : ℤ) : toSignedBytesLe z ≠ [] := by
  unfold toSignedBytesLe
  split_ifs <;> simp

@[simp] theorem ofSignedBytesLe_toSignedBytesLe (z : ℤ) :
    ofSignedBytesLe (toSignedBytesLe z) = z := by
  induction z using toSignedBytesLe.induct with
  | case1 z h =>
    have hbyte := toNat_lowByte z
    rw [toSignedBytesLe, if_pos h, ofSignedBytesLe]
    split_ifs <;> omega
  | case2 z h ih =>
    rw [toSignedBytesLe, if_neg h, ofSignedBytesLe, ih, toNat_lowByte]
    · omega
    · exact toSignedBytesLe_ne_nil _

example : toSignedBytesLe (-1125) = [155, 251] := by simp [toSignedBytesLe]

end Circom.Lib
