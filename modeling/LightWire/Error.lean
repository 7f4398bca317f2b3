/-
# Causes of failure

Reading from a cursor fails in one way: too few bytes are left.  Writing and
reading values fail for the causes of `WireError`; there a lack of bytes is
only reported as the end of the input.
-/

import LightWire.Hex

namespace LightWire

/-- A read asked for more bytes than were left. -/
structure EndOfBuffer where
  /-- The count of bytes asked for. -/
  wanted : Nat
  /-- The count of bytes that were left. -/
  remaining : Nat
  deriving DecidableEq, Repr

/-- The wording of a read beyond the end. -/
def EndOfBuffer.message (e : EndOfBuffer) : String :=
  s!"end of buffer: wanted {e.wanted} bytes, {e.remaining} remaining"

/-- Why a value cannot be written, or a byte string not be read. -/
inductive WireError where
  /-- An ordinal outside the variants of an enumeration. -/
  | invalidVariant (name : String) (ordinal count : Nat)
  /-- An enumeration with more variants than one byte tells apart. -/
  | tooManyVariants (name : String) (count : Nat)
  /-- The input ends inside a value. -/
  | unexpectedEnd
  /-- The input goes on after the value. -/
  | trailingBytes (consumed remaining : Nat)
  /-- A truth value is neither `0` nor `1`. -/
  | invalidBool (byte : UInt8)
  /-- The presence byte of an option is neither `0` nor `1`. -/
  | invalidOption (byte : UInt8)
  /-- The bytes of a text are not UTF-8. -/
  | invalidUtf8
  /-- A floating-point pattern stands for no number. -/
  | nanFloat
  /-- A count is too large for its prefix of four bytes. -/
  | lengthOverflow (length : Nat)
  /-- A count prefix exceeds the reader's limit. -/
  | lengthLimit (length max : Nat)
  /-- A byte string of the wrong length for a fixed-size value. -/
  | lengthMismatch (expected actual : Nat)
  /-- A non-empty sequence of elements that take no bytes. -/
  | zeroSizedCollection
  /-- A block height without room for the height its approval targets. -/
  | heightOverflow (height : UInt64)
  deriving DecidableEq, Repr

namespace WireError

/-- A read beyond the end of the buffer is the end of the input. -/
def ofEndOfBuffer (_ : EndOfBuffer) : WireError := unexpectedEnd

/-- The wording of each cause; a byte is shown as two hexadecimal digits. -/
def message : WireError → String
  | invalidVariant name ordinal count =>
    s!"invalid variant ordinal {ordinal} for enum `{name}` with {count} variants"
  | tooManyVariants name count =>
    s!"enum `{name}` declares {count} variants, more than a tag byte can address"
  | unexpectedEnd => "unexpected end of input"
  | trailingBytes consumed remaining =>
    s!"{remaining} trailing bytes after {consumed} consumed"
  | invalidBool byte => "invalid bool byte 0x" ++ Hex.text [byte]
  | invalidOption byte => "invalid option tag 0x" ++ Hex.text [byte]
  | invalidUtf8 => "invalid UTF-8 in string"
  | nanFloat => "NaN is not encodable"
  | lengthOverflow length => s!"length {length} does not fit a u32 prefix"
  | lengthLimit length max => s!"length {length} exceeds limit {max}"
  | lengthMismatch expected actual => s!"expected {expected} bytes, got {actual}"
  | zeroSizedCollection => "collections of zero-sized types are not allowed"
  | heightOverflow height =>
    s!"block height {height.toNat} overflows the approval target height"

end WireError
end LightWire
