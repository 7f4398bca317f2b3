/-
# Fixed-width scalars

Every scalar is a word of 8, 16, 32, 64 or 128 bits.  Its written form is the
word, least significant byte first:

| scalar | word |
| --- | --- |
| unsigned integer | the number |
| signed integer | the number in two's complement |
| binary floating point | the bit pattern: sign, exponent, fraction |

A floating-point number is its bit pattern here, so that two not-a-number
patterns that differ in a bit are two scalars.
-/

import LightWire.Bytes

namespace LightWire

/-- The widths of words. -/
inductive Width where
  | w8
  | w16
  | w32
  | w64
  | w128
  deriving DecidableEq, Repr

namespace Width

/-- A width in bytes. -/
def bytes : Width → Nat
  | w8 => 1
  | w16 => 2
  | w32 => 4
  | w64 => 8
  | w128 => 16

/-- A width in bits. -/
def bits : Width → Nat
  | w8 => 8
  | w16 => 16
  | w32 => 32
  | w64 => 64
  | w128 => 128

theorem bytes_pos (w : Width) : 0 < w.bytes := by
  cases w <;> decide

/-- A word is below the count of byte strings of its width. -/
theorem toNat_lt {w : Width} (x : BitVec w.bits) : x.toNat < Bytes.count w.bytes := by
  cases w <;> exact x.isLt

/-- A number below the count of byte strings of a width is that of a word. -/
theorem toNat_ofNat {w : Width} {n : Nat} (h : n < Bytes.count w.bytes) :
    (BitVec.ofNat w.bits n).toNat = n := by
  cases w <;> exact Nat.mod_eq_of_lt h

end Width

/-- A type whose values are the words of one width. -/
class Scalar (α : Type) where
  /-- The width of the words. -/
  width : Width
  /-- The word of a value. -/
  toWord : α → BitVec width.bits
  /-- The value of a word. -/
  ofWord : BitVec width.bits → α
  ofWord_toWord : ∀ x, ofWord (toWord x) = x
  toWord_ofWord : ∀ w, toWord (ofWord w) = w

namespace Scalar

/-- The count of bytes that a scalar type takes. -/
abbrev size (α : Type) [Scalar α] : Nat := (width α).bytes

/-- The written form of a scalar. -/
def toBytes {α : Type} [Scalar α] (x : α) : Bytes :=
  Bytes.littleEndian (size α) (toWord x).toNat

/-- The scalar that a byte string of its size denotes. -/
def ofBytes {α : Type} [Scalar α] (bs : Bytes) : α :=
  ofWord (BitVec.ofNat (width α).bits (Bytes.ofLittleEndian bs))

variable {α : Type} [Scalar α]

@[simp] theorem length_toBytes (x : α) : (toBytes x).length = size α :=
  Bytes.length_littleEndian _ _

/-- **A scalar is read back from its written form.** -/
@[simp] theorem ofBytes_toBytes (x : α) : ofBytes (toBytes x) = x := by
  unfold ofBytes toBytes
  rw [Bytes.ofLittleEndian_littleEndian, Nat.mod_eq_of_lt (Width.toNat_lt (toWord x)),
    BitVec.ofNat_toNat, BitVec.setWidth_eq, ofWord_toWord]

/-- **Every byte string of its size is the form of a scalar,** the one that it
denotes. -/
theorem toBytes_ofBytes {bs : Bytes} (h : bs.length = size α) :
    toBytes (ofBytes bs : α) = bs := by
  have hlt := Bytes.ofLittleEndian_lt bs
  rw [h] at hlt
  unfold toBytes ofBytes
  rw [toWord_ofWord, Width.toNat_ofNat hlt, ← h]
  exact Bytes.littleEndian_ofLittleEndian bs

end Scalar

instance : Scalar UInt8 := ⟨.w8, UInt8.toBitVec, UInt8.ofBitVec, fun _ => rfl, fun _ => rfl⟩
instance : Scalar UInt16 := ⟨.w16, UInt16.toBitVec, UInt16.ofBitVec, fun _ => rfl, fun _ => rfl⟩
instance : Scalar UInt32 := ⟨.w32, UInt32.toBitVec, UInt32.ofBitVec, fun _ => rfl, fun _ => rfl⟩
instance : Scalar UInt64 := ⟨.w64, UInt64.toBitVec, UInt64.ofBitVec, fun _ => rfl, fun _ => rfl⟩
instance : Scalar Int8 := ⟨.w8, Int8.toBitVec, Int8.ofBitVec, fun _ => rfl, fun _ => rfl⟩
instance : Scalar Int16 := ⟨.w16, Int16.toBitVec, Int16.ofBitVec, fun _ => rfl, fun _ => rfl⟩
instance : Scalar Int32 := ⟨.w32, Int32.toBitVec, Int32.ofBitVec, fun _ => rfl, fun _ => rfl⟩
instance : Scalar Int64 := ⟨.w64, Int64.toBitVec, Int64.ofBitVec, fun _ => rfl, fun _ => rfl⟩

/-- A byte is written as itself. -/
@[simp] theorem Scalar.toBytes_byte (b : UInt8) : toBytes b = [b] :=
  congrArg (fun c => [c]) (UInt8.ofNat_toNat (x := b))

/-- Unsigned integers of 128 bits. -/
structure UInt128 where
  /-- The number as a word. -/
  word : BitVec 128
  deriving DecidableEq

namespace UInt128

/-- The number that a word of 128 bits stands for. -/
def toNat (x : UInt128) : Nat := x.word.toNat

/-- The word of a number, up to `2 ^ 128`. -/
def ofNat (n : Nat) : UInt128 := ⟨BitVec.ofNat 128 n⟩

end UInt128

instance : Scalar UInt128 := ⟨.w128, UInt128.word, UInt128.mk, fun _ => rfl, fun _ => rfl⟩

/-- Signed integers of 128 bits, in two's complement. -/
structure Int128 where
  /-- The number as a word. -/
  word : BitVec 128
  deriving DecidableEq

namespace Int128

/-- The number that a word of 128 bits stands for in two's complement. -/
def toInt (x : Int128) : Int := x.word.toInt

/-- The word of a number in two's complement, up to `2 ^ 128`. -/
def ofInt (i : Int) : Int128 := ⟨BitVec.ofInt 128 i⟩

end Int128

instance : Scalar Int128 := ⟨.w128, Int128.word, Int128.mk, fun _ => rfl, fun _ => rfl⟩

/-- The binary floating-point formats of 32 and 64 bits. -/
inductive Precision where
  | single
  | double
  deriving DecidableEq, Repr

namespace Precision

/-- The width of a format's patterns. -/
def width : Precision → Width
  | single => .w32
  | double => .w64

/-- The pattern of positive infinity: every exponent bit and nothing else. -/
def infinity : Precision → Nat
  | single => 0x7f800000
  | double => 0x7ff0000000000000

/-- The pattern of negative zero: the sign bit and nothing else. -/
def sign : Precision → Nat
  | single => 0x80000000
  | double => 0x8000000000000000

end Precision

/-- A floating-point number, by its bit pattern. -/
structure FloatBits (p : Precision) where
  /-- The pattern as a word: sign, exponent, fraction. -/
  word : BitVec p.width.bits
  deriving DecidableEq

namespace FloatBits

/-- A pattern stands for no number when, its sign bit dropped, it lies above
the pattern of infinity. -/
def isNaN {p : Precision} (x : FloatBits p) : Bool :=
  decide (p.infinity < x.word.toNat % p.sign)

end FloatBits

instance (p : Precision) : Scalar (FloatBits p) :=
  ⟨p.width, FloatBits.word, FloatBits.mk, fun _ => rfl, fun _ => rfl⟩

end LightWire
