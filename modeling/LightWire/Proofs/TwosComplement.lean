/-
# Integers in two's complement

The form of `w` bytes of an integer `i`, negative or not, has for byte `k` the
digit of `256 ^ k`, the integer `i / 256 ^ k` up to a multiple of `256`, where
the quotient is rounded down:

| integer | width | bytes |
| ---: | ---: | --- |
| `258` | 2 | `02 01` |
| `-1` | 2 | `ff ff` |
| `-2` | 4 | `fe ff ff ff` |

Integers that differ by a multiple of `256 ^ w` have the same form
(`twosComplement_congr`), so it does not matter whether a word is read as an
unsigned number or as a signed one: what is written of it is the form of both
(`toBytes_eq_twosComplement`, `toBytes_eq_number`).
-/

import LightWire.Scalar
import Mathlib.Algebra.Group.Int.Defs
import Mathlib.Algebra.Group.Nat.Defs

namespace LightWire

namespace Bytes

/-- The `w` lowest digits of an integer to the base `256`, the lowest first. -/
def twosComplement (w : Nat) (i : Int) : Bytes :=
  List.ofFn fun k : Fin w => UInt8.ofInt (i / 256 ^ k.val)

/-- A byte is given by an integer up to a multiple of `256`. -/
theorem ofInt_congr {i j : Int} (h : i % 256 = j % 256) : UInt8.ofInt i = UInt8.ofInt j :=
  congrArg (fun n : Int => UInt8.ofNat n.toNat) h

/-- A digit below `256 ^ w` is a digit of the remainder by `256 ^ w`. -/
theorem emod_pow_ediv_pow_emod {w k : Nat} (h : k < w) (i : Int) :
    i % 256 ^ w / 256 ^ k % 256 = i / 256 ^ k % 256 := by
  obtain ⟨d, rfl⟩ := Nat.exists_eq_add_of_lt h
  have hpow : (256 : Int) ^ (k + d + 1) = 256 ^ k * (256 * 256 ^ d) := by
    rw [Int.pow_succ, Int.pow_add, Int.mul_assoc, Int.mul_comm (256 ^ d)]
  have hpos : (256 : Int) ^ k ≠ 0 := Int.pow_ne_zero (by decide)
  have hsplit : i / 256 ^ k =
      i % 256 ^ (k + d + 1) / 256 ^ k + 256 * (256 ^ d * (i / 256 ^ (k + d + 1))) := by
    conv => lhs; rw [← Int.emod_add_mul_ediv i (256 ^ (k + d + 1))]
    rw [← Int.add_mul_ediv_left _ _ hpos, ← Int.mul_assoc 256, ← Int.mul_assoc (256 ^ k), ← hpow]
  rw [hsplit, Int.add_mul_emod_self_left]

/-- **Integers that differ by a multiple of `256 ^ w` have the same form.** -/
theorem twosComplement_congr {w : Nat} {i j : Int} (h : i % 256 ^ w = j % 256 ^ w) :
    twosComplement w i = twosComplement w j := by
  refine congrArg List.ofFn (funext fun k => ofInt_congr ?_)
  rw [← emod_pow_ediv_pow_emod k.isLt, h, emod_pow_ediv_pow_emod k.isLt]

/-- **The digits of a number are found one after the other,** each as the
remainder of what the digits before it left. -/
theorem littleEndian_eq_twosComplement (w n : Nat) : littleEndian w n = twosComplement w n := by
  induction w generalizing n with
  | zero => rfl
  | succ w ih =>
    have hdigit : UInt8.ofNat n = UInt8.ofInt (n / 256 ^ 0) := by
      apply UInt8.toNat_inj.1
      simp [UInt8.ofInt]
      omega
    have hrest : ∀ k : Fin w, ((n / 256 : Nat) : Int) / 256 ^ k.val = n / 256 ^ (k.val + 1) := by
      intro k
      rw [Int.natCast_ediv, Int.ediv_ediv_of_nonneg (by decide), Int.pow_succ, Int.mul_comm]
      rfl
    rw [littleEndian, ih, twosComplement, twosComplement, List.ofFn_succ]
    simp only [hrest, hdigit]
    rfl

end Bytes

/-- A type of integers: each value is a number, and its word is that number in
two's complement. -/
class IntegerScalar (α : Type) [Scalar α] where
  /-- The number that a value is. -/
  number : α → Int
  toWord_eq : ∀ x, Scalar.toWord x = BitVec.ofInt (Scalar.width α).bits (number x)

namespace Scalar

variable {α : Type} [Scalar α]

/-- **A scalar is written as the digits of its word.** -/
theorem toBytes_eq_twosComplement (x : α) :
    toBytes x = Bytes.twosComplement (size α) (toWord x).toNat :=
  Bytes.littleEndian_eq_twosComplement _ _

/-- **An integer is written in two's complement.** -/
theorem toBytes_eq_number [IntegerScalar α] (x : α) :
    toBytes x = Bytes.twosComplement (size α) (IntegerScalar.number x) := by
  rw [toBytes_eq_twosComplement]
  apply Bytes.twosComplement_congr
  have hpow : (256 : Int) ^ size α = (2 ^ (width α).bits : Nat) := by
    rw [size]
    cases width α <;> rfl
  have hpos : ((2 ^ (width α).bits : Nat) : Int) ≠ 0 :=
    Int.natCast_ne_zero.2 (Nat.pos_iff_ne_zero.1 (Nat.two_pow_pos _))
  rw [IntegerScalar.toWord_eq x, BitVec.toNat_ofInt, hpow,
    Int.toNat_of_nonneg (Int.emod_nonneg _ hpos), Int.emod_emod]

end Scalar

/-- A word is the word of the number that it is unsigned. -/
theorem ofInt_toNat {w : Nat} (x : BitVec w) : x = BitVec.ofInt w x.toNat := by
  rw [BitVec.ofInt_natCast, BitVec.ofNat_toNat, BitVec.setWidth_eq]

instance : IntegerScalar UInt8 := ⟨fun x => x.toNat, fun x => ofInt_toNat x.toBitVec⟩
instance : IntegerScalar UInt16 := ⟨fun x => x.toNat, fun x => ofInt_toNat x.toBitVec⟩
instance : IntegerScalar UInt32 := ⟨fun x => x.toNat, fun x => ofInt_toNat x.toBitVec⟩
instance : IntegerScalar UInt64 := ⟨fun x => x.toNat, fun x => ofInt_toNat x.toBitVec⟩
instance : IntegerScalar UInt128 := ⟨fun x => x.toNat, fun x => ofInt_toNat x.word⟩
instance : IntegerScalar Int8 := ⟨Int8.toInt, fun _ => BitVec.ofInt_toInt.symm⟩
instance : IntegerScalar Int16 := ⟨Int16.toInt, fun _ => BitVec.ofInt_toInt.symm⟩
instance : IntegerScalar Int32 := ⟨Int32.toInt, fun _ => BitVec.ofInt_toInt.symm⟩
instance : IntegerScalar Int64 := ⟨Int64.toInt, fun _ => BitVec.ofInt_toInt.symm⟩
instance : IntegerScalar Int128 := ⟨Int128.toInt, fun _ => BitVec.ofInt_toInt.symm⟩

end LightWire
