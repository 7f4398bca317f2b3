/-
# Writing step by step

A `Put` says at once what a run of writes appends.  A `Writer` does it step by
step: it takes a buffer, and leaves it changed, also when it is refused.  Each step
looks at what it is given before it appends anything:

| write | steps |
| --- | --- |
| `append`, `fixed` | append the bytes |
| `scalar` | append the word, least significant byte first |
| `bool`, `optionTag` | append `0` or `1` |
| `float` | refuse a pattern that is no number; append the pattern |
| `length` | refuse a count above `2 ^ 32 - 1`; append it as a word of four bytes |
| `sized`, `text` | the count; append the bytes |
| `tag` | check the ordinal; append it as one byte |

Steps in a row stop at the first that is refused.
-/

import LightWire.Buffer

namespace LightWire

/-- A step of writing: from a buffer to what it answers, or why it is refused, and
the buffer after it. -/
def Writer (α : Type) : Type := Buffer → Except WireError α × Buffer

namespace Writer

variable {α β : Type}

/-- Leaves the buffer as it is. -/
protected def pure (x : α) : Writer α := fun b => (.ok x, b)

/-- One step and then another that depends on its answer, unless it is refused. -/
protected def bind (w : Writer α) (f : α → Writer β) : Writer β := fun b =>
  match w b with
  | (.ok x, b') => f x b'
  | (.error e, b') => (.error e, b')

instance : Monad Writer where
  pure := Writer.pure
  bind := Writer.bind

/-- What follows a step goes on with the buffer that the step left. -/
theorem bind_apply (w : Writer α) (f : α → Writer β) (b : Buffer) :
    (w >>= f) b = match w b with
      | (.ok x, b') => f x b'
      | (.error e, b') => (.error e, b') := rfl

/-- Refuses, and leaves the buffer as it is. -/
def fail (e : WireError) : Writer α := fun b => (.error e, b)

/-- Answers what was found without the buffer. -/
def ofExcept (r : Except WireError α) : Writer α := fun b => (r, b)

/-- Appends bytes. -/
def append (bs : Bytes) : Writer Unit := fun b => (.ok (), b.append bs)

/-- Writes a scalar. -/
def scalar [Scalar α] (x : α) : Writer Unit := fun b => (.ok (), b.scalar x)

/-- Writes a truth value as one byte. -/
def bool (b : Bool) : Writer Unit := scalar (if b then 1 else 0 : UInt8)

/-- Writes whether an option holds a value, as one byte. -/
def optionTag (present : Bool) : Writer Unit := scalar (if present then 1 else 0 : UInt8)

/-- Writes the pattern of a number; refuses a pattern that is none. -/
def float {p : Precision} (x : FloatBits p) : Writer Unit :=
  if x.isNaN then fail .nanFloat else scalar x

/-- Writes a count as a word of four bytes; refuses one that does not fit. -/
def length (n : Nat) : Writer Unit :=
  if Put.maxLength < n then fail (.lengthOverflow n) else scalar (UInt32.ofNat n)

/-- Writes bytes as they are. -/
def fixed (bs : Bytes) : Writer Unit := append bs

/-- Writes a count of bytes and then the bytes. -/
def sized (bs : Bytes) : Writer Unit := do
  length bs.length
  append bs

/-- Writes a text: the count of its UTF-8 bytes and then the bytes. -/
def text (s : String) : Writer Unit := sized (Put.utf8 s)

/-- The byte of an ordinal.  An enumeration that one byte cannot address is refused
first, and then an ordinal beyond its variants. -/
def checkedTag (name : String) (ordinal count : Nat) : Except WireError UInt8 :=
  if Put.maxVariants < count then .error (.tooManyVariants name count)
  else if count ≤ ordinal then .error (.invalidVariant name ordinal count)
  else .ok (UInt8.ofNat ordinal)

/-- Writes the ordinal of a variant of an enumeration as one byte. -/
def tag (name : String) (ordinal count : Nat) : Writer Unit := do
  let byte ← ofExcept (checkedTag name ordinal count)
  scalar byte

/-- **Bytes written one by one are written as they are.** -/
theorem forM_byte (bs : Bytes) : (bs.forM fun byte => scalar byte) = fixed bs := by
  induction bs with
  | nil =>
    exact funext fun b => congrArg (Prod.mk _) b.append_nil.symm
  | cons byte bs ih =>
    have hcons : ((byte :: bs).forM fun byte => scalar byte) =
        scalar byte >>= fun _ => bs.forM fun byte => scalar byte := rfl
    rw [hcons, ih]
    funext b
    have happend : (b.scalar byte).append bs = b.append (byte :: bs) := by
      rw [Buffer.scalar, Scalar.toBytes_byte, Buffer.append_append, List.singleton_append]
    exact congrArg (Prod.mk _) happend

/-- Takes out the bytes of one writer alone, or its cause of failure; what was held
before is dropped, and so are bytes written before a refusal. -/
def encode (w : Writer Unit) (b : Buffer) : Except WireError Bytes × Buffer :=
  match w b.clear with
  | (.ok (), b') => (.ok b'.flush.1, b'.flush.2)
  | (.error e, b') => (.error e, b'.clear)

end Writer
end LightWire
