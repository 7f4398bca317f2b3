/-
# Reading values from a cursor

A `Get` reads a value at a cursor, under a limit on count prefixes, and says
where it left the cursor, also when it fails.  Reads in a row stop at the first
that fails.  How far each single read moves the cursor:

| read | moves by | fails when | then moves by |
| --- | --- | --- | --- |
| any | its size | fewer bytes are left | 0 |
| `bool`, `optionTag` | 1 | the byte is above `1` | 1 |
| `float` | 4 or 8 | the pattern is no number | 4 or 8 |
| `length` | 4 | the count is above the limit | 4 |
| `sized`, `text` | 4 and the count | fewer bytes follow the count | 4 |
| `text` | 4 and the count | the bytes are not UTF-8 | 4 and the count |
| `tag` | 1 | the byte is no ordinal | 1 |

A read takes its bytes all at once or not at all; `replicate` and `items` read
values one by one, so a failure inside leaves the cursor after the values before it.
`arrayOr` and `eitherOr` have a branch for what no read gives them, which is left
open.
-/

import LightWire.Cursor
import LightWire.Put

namespace LightWire

/-- A reader of values: from the limit on count prefixes and a cursor to the
value, or the cause of failure, and the cursor after it. -/
def Get (α : Type) : Type := (maxLen : Nat) → Cursor → Except WireError α × Cursor

namespace Get

variable {α β γ : Type}

/-- Reads nothing. -/
protected def pure (x : α) : Get α := fun _ c => (.ok x, c)

/-- Reads one value and then another that depends on it. -/
protected def bind (g : Get α) (f : α → Get β) : Get β := fun maxLen c =>
  match g maxLen c with
  | (.ok x, c') => f x maxLen c'
  | (.error e, c') => (.error e, c')

instance : Monad Get where
  pure := Get.pure
  bind := Get.bind

@[simp] theorem pure_apply (x : α) (maxLen : Nat) (c : Cursor) :
    (pure x : Get α) maxLen c = (.ok x, c) := rfl

/-- What follows a read goes on from where that read left the cursor. -/
theorem bind_apply (g : Get α) (f : α → Get β) (maxLen : Nat) (c : Cursor) :
    (g >>= f) maxLen c = match g maxLen c with
      | (.ok x, c') => f x maxLen c'
      | (.error e, c') => (.error e, c') := rfl

theorem pure_bind (x : α) (f : α → Get β) : (pure x : Get α) >>= f = f x := rfl

theorem bind_assoc (g : Get α) (f : α → Get β) (k : β → Get γ) :
    g >>= f >>= k = g >>= fun x => f x >>= k := by
  funext maxLen c
  simp only [bind_apply]
  rcases g maxLen c with ⟨_ | x, c'⟩
  · rfl
  · rfl

/-- Fails where the cursor is. -/
def fail (e : WireError) : Get α := fun _ c => (.error e, c)

/-- Moves the cursor; too few bytes are the end of the input. -/
def ofCursor (move : Cursor → Except EndOfBuffer α × Cursor) : Get α := fun _ c =>
  match move c with
  | (.ok x, c') => (.ok x, c')
  | (.error e, c') => (.error (.ofEndOfBuffer e), c')

/-- Reads the next `n` bytes as they are. -/
def raw (n : Nat) : Get (Vector UInt8 n) := ofCursor (Cursor.take n)

/-- Reads a scalar. -/
def scalar [Scalar α] : Get α := ofCursor (Cursor.scalar α)

/-- Reads a byte that is `0` or `1`; any other is refused as `invalid` says. -/
def flag (invalid : UInt8 → WireError) : Get Bool := do
  let byte : UInt8 ← scalar
  if byte = 0 then pure false
  else if byte = 1 then pure true
  else fail (invalid byte)

/-- Reads a truth value. -/
def bool : Get Bool := flag .invalidBool

/-- Reads whether an option holds a value. -/
def optionTag : Get Bool := flag .invalidOption

/-- Reads a number; refuses a pattern that is none. -/
def float (p : Precision) : Get (FloatBits p) := do
  let x ← scalar
  if x.isNaN then fail .nanFloat else pure x

/-- Reads a count of four bytes; refuses one above the limit. -/
def length : Get Nat := do
  let word : UInt32 ← scalar
  fun maxLen =>
    if maxLen < word.toNat then fail (.lengthLimit word.toNat maxLen) maxLen
    else Get.pure word.toNat maxLen

/-- Reads a count of bytes and then the bytes. -/
def sized : Get Bytes := do
  let n ← length
  let field ← raw n
  pure field.toList

/-- The text of UTF-8 bytes. -/
def ofUtf8? (bs : Bytes) : Option String := String.fromUTF8? bs.toByteArray

/-- Reads a text: the count of its UTF-8 bytes and then the bytes. -/
def text : Get String := do
  let bs ← sized
  match ofUtf8? bs with
  | some s => pure s
  | none => fail .invalidUtf8

/-- Reads the ordinal of a variant of an enumeration.  One that a byte cannot
address is refused before anything is read. -/
def tag (name : String) (count : Nat) : Get (Fin count) :=
  if Put.maxVariants < count then fail (.tooManyVariants name count)
  else do
    let byte : UInt8 ← scalar
    if h : byte.toNat < count then pure ⟨byte.toNat, h⟩
    else fail (.invalidVariant name byte.toNat count)

/-- Reads `n` values one by one. -/
def replicate (g : Get α) : (n : Nat) → Get { xs : List α // xs.length = n }
  | 0 => pure ⟨[], rfl⟩
  | n + 1 => do
    let x ← g
    let xs ← replicate g n
    pure ⟨x :: xs.val, by simp [xs.property]⟩

/-- Reads values one by one into a list that does not say how many they are. -/
def items (g : Get α) : (n : Nat) → Get (List α)
  | 0 => pure []
  | n + 1 => do
    let x ← g
    let xs ← items g n
    pure (x :: xs)

/-- The list has as many values as were asked for. -/
theorem items_eq_replicate (g : Get α) (n : Nat) :
    items g n = replicate g n >>= fun xs => pure xs.val := by
  induction n with
  | zero => rfl
  | succ n ih =>
    simp only [items, replicate, ih, bind_assoc]
    rfl

/-- Reads `n` values as an array of as many; for any other count of values it goes
on with `otherwise`. -/
def arrayOr (n : Nat) (g : Get α) (otherwise : List α → Get (Vector α n)) :
    Get (Vector α n) := do
  let xs ← items g n
  if h : xs.length = n then pure ⟨xs.toArray, by simp [h]⟩
  else otherwise xs

/-- Reads the ordinal of one of two variants and goes on with the read of that
variant; for an ordinal above `1` it goes on with `otherwise`. -/
def eitherOr (name : String) (left right : Get α) (otherwise : Nat → Get α) : Get α := do
  let i ← tag name 2
  match i.val with
  | 0 => left
  | 1 => right
  | ordinal => otherwise ordinal

end Get
end LightWire
