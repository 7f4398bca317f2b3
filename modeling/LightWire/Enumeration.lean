/-
# Enumerations with one tag byte

An enumeration is a table: its name, its variants in order, and the two maps
between values and ordinals.  The table is data and may be inconsistent; each
operation checks the ordinals that it meets.  A table is lawful when its maps
are the positions in its list of variants and this list is complete.

| operation | gives | refuses |
| --- | --- | --- |
| `put`, `write` | the ordinal of the value, appended | an ordinal beyond the table |
| `encodeVariant` | the ordinal of the value as one byte | an ordinal beyond the table |
| `encodeOrdinal` | the ordinal as one byte | an ordinal beyond the table |
| `decodeVariant` | the value of the one byte | any other input |

All of them refuse a table of more than 256 variants.
-/

import LightWire.Decoder
import LightWire.Writer

namespace LightWire

/-- The table of an enumeration. -/
structure Enumeration (α : Type) where
  /-- The name that errors mention. -/
  name : String
  /-- The variants in order. -/
  variants : List α
  /-- The ordinal that a value claims. -/
  ordinal : α → UInt8
  /-- The value that an ordinal stands for, if any. -/
  ofOrdinal? : UInt8 → Option α

namespace Enumeration

variable {α : Type}

/-- The count of variants. -/
def count (e : Enumeration α) : Nat := e.variants.length

/-- Appends the ordinal of a value. -/
def put (e : Enumeration α) (x : α) : Put := Put.tag e.name (e.ordinal x).toNat e.count

/-- Writes the ordinal of a value. -/
def write (e : Enumeration α) (x : α) : Writer Unit :=
  Writer.tag e.name (e.ordinal x).toNat e.count

/-- Reads the value of an ordinal; an ordinal that stands for none is refused
like one beyond the table. -/
def get (e : Enumeration α) : Get α := do
  let tag ← Get.tag e.name e.count
  match e.ofOrdinal? (UInt8.ofNat tag.val) with
  | some x => pure x
  | none => Get.fail (.invalidVariant e.name tag.val e.count)

/-- The one byte that stands for a value. -/
def encodeVariant (e : Enumeration α) (x : α) : Except WireError Bytes := (e.put x).toExcept

/-- The one byte that stands for an ordinal. -/
def encodeOrdinal (e : Enumeration α) (ordinal : UInt8) : Except WireError Bytes :=
  (Put.tag e.name ordinal.toNat e.count).toExcept

/-- The value that a whole input stands for. -/
def decodeVariant (e : Enumeration α) (data : Bytes) : Except WireError α := e.get.whole {} data

/-- A consistent table: one to 256 variants, every value among them, and both
maps the positions in their list. -/
structure Lawful (e : Enumeration α) : Prop where
  count_pos : 0 < e.count
  count_le : e.count ≤ Put.maxVariants
  mem_variants : ∀ x, x ∈ e.variants
  ordinal_getElem : ∀ (i : Nat) (h : i < e.variants.length), (e.ordinal e.variants[i]).toNat = i
  ofOrdinal?_eq : ∀ b, e.ofOrdinal? b = e.variants[b.toNat]?

/-- The table whose ordinals are the positions in a list. -/
def ofVariants [BEq α] (name : String) (variants : List α) : Enumeration α where
  name := name
  variants := variants
  ordinal := fun x => UInt8.ofNat (variants.idxOf x)
  ofOrdinal? := fun b => variants[b.toNat]?

/-- **A complete list without repetition gives a lawful table,** if it has one to
256 variants. -/
theorem lawful_ofVariants [BEq α] [LawfulBEq α] {name : String} {variants : List α}
    (mem : ∀ x, x ∈ variants) (nodup : variants.Nodup) (pos : 0 < variants.length)
    (le : variants.length ≤ Put.maxVariants) : (ofVariants name variants).Lawful where
  count_pos := pos
  count_le := le
  mem_variants := mem
  ordinal_getElem := fun i h => by
    have h256 : i < 2 ^ 8 := Nat.lt_of_lt_of_le h le
    simp only [ofVariants, nodup.idxOf_getElem, UInt8.toNat_ofNat', Nat.mod_eq_of_lt h256]
  ofOrdinal?_eq := fun _ => rfl

end Enumeration
end LightWire
