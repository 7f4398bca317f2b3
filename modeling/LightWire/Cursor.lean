/-
# Reading position in a byte string

A cursor is what is left of an input and how many bytes of it were taken.  One
operation moves it, `take n`: it takes the next `n` bytes, or, when fewer are
left, reports both counts and leaves the cursor where it was.
-/

import LightWire.Error
import LightWire.Scalar

namespace LightWire

/-- A place in an input. -/
structure Cursor where
  /-- The count of bytes taken. -/
  position : Nat
  /-- The bytes not yet taken. -/
  rest : Bytes
  deriving DecidableEq, Repr

namespace Cursor

/-- The beginning of an input. -/
def ofBytes (data : Bytes) : Cursor := ⟨0, data⟩

/-- The place in an input after its first `position` bytes. -/
def seek (data : Bytes) (position : Nat) : Cursor := ⟨position, data.drop position⟩

/-- The count of bytes left. -/
def size (c : Cursor) : Nat := c.rest.length

/-- The byte that would be taken next. -/
def peek (c : Cursor) : Option UInt8 := c.rest.head?

/-- The place `n` bytes further on. -/
def advance (c : Cursor) (n : Nat) : Cursor := ⟨c.position + n, c.rest.drop n⟩

/-- Takes the next `n` bytes, all or none. -/
def take (n : Nat) (c : Cursor) : Except EndOfBuffer (Vector UInt8 n) × Cursor :=
  let field := c.rest.take n
  if h : field.length = n then (.ok ⟨field.toArray, by simp [h]⟩, c.advance n)
  else (.error ⟨n, c.size⟩, c)

/-- Takes the next scalar. -/
def scalar (α : Type) [Scalar α] (c : Cursor) : Except EndOfBuffer α × Cursor :=
  match c.take (Scalar.size α) with
  | (.ok field, c') => (.ok (Scalar.ofBytes field.toList), c')
  | (.error e, c') => (.error e, c')

/-- **As many bytes as are left can be taken.** -/
theorem take_of_le {n : Nat} {c : Cursor} (h : n ≤ c.size) :
    c.take n = (.ok ⟨(c.rest.take n).toArray,
      by simp [Nat.min_eq_left (show n ≤ c.rest.length from h)]⟩, c.advance n) := by
  have hlen : (c.rest.take n).length = n := List.length_take_of_le h
  simp only [take, hlen, dite_true]

/-- **More bytes than are left cannot be taken,** and the cursor stays. -/
theorem take_of_lt {n : Nat} {c : Cursor} (h : c.size < n) :
    c.take n = (.error ⟨n, c.size⟩, c) := by
  have hlen : ¬ (c.rest.take n).length = n := by
    rw [List.length_take]
    simp only [size] at h
    omega
  simp only [take, hlen, dite_false]

end Cursor
end LightWire
