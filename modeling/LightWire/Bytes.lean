/-
# Byte strings and their numeric reading

A byte string is a list of bytes.  A number of `w` bytes is written least
significant byte first:

| number | width | bytes |
| ---: | ---: | --- |
| `1` | 1 | `01` |
| `258` | 2 | `02 01` |
| `2 ^ 32 - 1` | 4 | `ff ff ff ff` |

Writing and reading are inverse: every number below `256 ^ w` has exactly one
form of `w` bytes, and every string of `w` bytes is the form of one.
-/

namespace LightWire

/-- A byte string. -/
abbrev Bytes := List UInt8

namespace Bytes

/-- The `w` lowest bytes of `n`, least significant first. -/
def littleEndian : (w n : Nat) → Bytes
  | 0, _ => []
  | w + 1, n => UInt8.ofNat n :: littleEndian w (n / 256)

/-- The number that a byte string denotes, least significant byte first. -/
def ofLittleEndian : Bytes → Nat
  | [] => 0
  | b :: bs => b.toNat + 256 * ofLittleEndian bs

/-- The count of byte strings of a length, `256 ^ w`. -/
def count : (w : Nat) → Nat
  | 0 => 1
  | w + 1 => 256 * count w

@[simp] theorem length_littleEndian (w n : Nat) : (littleEndian w n).length = w := by
  induction w generalizing n with
  | zero => rfl
  | succ w ih => simp [littleEndian, ih]

/-- A byte string denotes a number that its length holds. -/
theorem ofLittleEndian_lt (bs : Bytes) : ofLittleEndian bs < count bs.length := by
  induction bs with
  | nil => exact Nat.one_pos
  | cons b bs ih =>
    have := b.toNat_lt
    simp only [ofLittleEndian, List.length_cons, count]
    omega

/-- Bytes further on are counted in units of what the bytes before them can denote. -/
theorem ofLittleEndian_append (bs cs : Bytes) :
    ofLittleEndian (bs ++ cs) = ofLittleEndian bs + count bs.length * ofLittleEndian cs := by
  induction bs with
  | nil =>
    rw [List.nil_append, List.length_nil, ofLittleEndian, count, Nat.one_mul, Nat.zero_add]
  | cons b bs ih =>
    rw [List.cons_append, ofLittleEndian, ih, ofLittleEndian, List.length_cons, count,
      Nat.mul_add, Nat.mul_assoc, Nat.add_assoc]

/-- **A number is read back from its bytes,** up to what its width holds. -/
theorem ofLittleEndian_littleEndian (w n : Nat) :
    ofLittleEndian (littleEndian w n) = n % count w := by
  induction w generalizing n with
  | zero => simp [littleEndian, ofLittleEndian, count, Nat.mod_one]
  | succ w ih => rw [littleEndian, ofLittleEndian, ih, UInt8.toNat_ofNat', count, Nat.mod_mul]

/-- **A byte string is the form of the number that it denotes,** so no two
strings of one length denote the same number. -/
theorem littleEndian_ofLittleEndian (bs : Bytes) :
    littleEndian bs.length (ofLittleEndian bs) = bs := by
  induction bs with
  | nil => rfl
  | cons b bs ih =>
    have hb := b.toNat_lt
    have hq : (b.toNat + 256 * ofLittleEndian bs) / 256 = ofLittleEndian bs := by omega
    have hr : UInt8.ofNat (b.toNat + 256 * ofLittleEndian bs) = b := by
      apply UInt8.toNat_inj.1
      simp only [UInt8.toNat_ofNat']
      omega
    simp only [List.length_cons, littleEndian, ofLittleEndian, hq, hr, ih]

end Bytes
end LightWire
