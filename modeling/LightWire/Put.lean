/-
# What writing appends

Writing appends bytes and may stop at a cause of failure.  A `Put` is both at
once: the bytes appended, and the cause that stopped it, if any.  Two in a row
append the bytes of both, unless the first one stopped.  Each single write
either appends its bytes or stops with nothing appended:

| write | bytes | stops when |
| --- | --- | --- |
| `scalar` | the word, least significant byte first | never |
| `bool`, `optionTag` | `0` or `1` | never |
| `float` | its bit pattern | it is no number |
| `length` | the count in four bytes | it is above `2 ^ 32 - 1` |
| `raw` | the bytes | never |
| `sized`, `text` | their count, then the bytes | the count does not fit |
| `tag` | the ordinal in one byte | it is no ordinal of its enumeration |
-/

import LightWire.Error
import LightWire.Scalar

namespace LightWire

/-- The bytes appended by a run of writes, and the cause that stopped it. -/
structure Put where
  /-- The bytes appended. -/
  bytes : Bytes
  /-- The cause of the stop, if the run did not end. -/
  error? : Option WireError
  deriving DecidableEq, Repr

namespace Put

/-- Appends bytes as they are. -/
def raw (bs : Bytes) : Put := ⟨bs, none⟩

/-- Appends nothing. -/
def empty : Put := raw []

/-- Stops, with nothing appended. -/
def fail (e : WireError) : Put := ⟨[], some e⟩

/-- One run of writes after another; the second does not begin when the first
one stopped. -/
def append (p q : Put) : Put :=
  match p.error? with
  | none => ⟨p.bytes ++ q.bytes, q.error?⟩
  | some _ => p

instance : Append Put := ⟨append⟩

/-- Runs of writes in order, up to the first that stops. -/
def concat (ps : List Put) : Put := ps.foldr (· ++ ·) empty

/-- The bytes of a run that ended, or the cause that stopped it. -/
def toExcept (p : Put) : Except WireError Bytes :=
  match p.error? with
  | none => .ok p.bytes
  | some e => .error e

/-- The largest count that a prefix of four bytes holds. -/
def maxLength : Nat := 4294967295

/-- The largest count of variants that one byte tells apart. -/
def maxVariants : Nat := 256

/-- Writes a scalar. -/
def scalar {α : Type} [Scalar α] (x : α) : Put := raw (Scalar.toBytes x)

/-- Writes a truth value as one byte. -/
def bool (b : Bool) : Put := raw [if b then 1 else 0]

/-- Writes whether an option holds a value, as one byte. -/
def optionTag (present : Bool) : Put := bool present

/-- Writes the pattern of a number; refuses a pattern that is none. -/
def float {p : Precision} (x : FloatBits p) : Put :=
  if x.isNaN then fail .nanFloat else scalar x

/-- Writes a count as four bytes; refuses one that does not fit. -/
def length (n : Nat) : Put :=
  if n ≤ maxLength then raw (Bytes.littleEndian 4 n) else fail (.lengthOverflow n)

/-- Writes a count of bytes and then the bytes. -/
def sized (bs : Bytes) : Put := length bs.length ++ raw bs

/-- The UTF-8 bytes of a text. -/
def utf8 (s : String) : Bytes := s.toByteArray.data.toList

/-- Writes a text: the count of its UTF-8 bytes and then the bytes. -/
def text (s : String) : Put := sized (utf8 s)

/-- Writes the ordinal of a variant of an enumeration as one byte; refuses an
enumeration that one byte cannot address, and an ordinal beyond its variants. -/
def tag (name : String) (ordinal count : Nat) : Put :=
  if maxVariants < count then fail (.tooManyVariants name count)
  else if ordinal < count then raw [UInt8.ofNat ordinal]
  else fail (.invalidVariant name ordinal count)

end Put
end LightWire
