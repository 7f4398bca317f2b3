/-
# Growing byte buffer

A buffer collects bytes until they are taken out.  Writes only append to it:
what a run of writes appended before it stopped stays.  Encoding a whole value
starts from an empty buffer and leaves an empty one, whether it ends or stops.
-/

import LightWire.Put

namespace LightWire

/-- The bytes collected so far. -/
structure Buffer where
  /-- The bytes, oldest first. -/
  bytes : Bytes
  deriving DecidableEq, Repr

namespace Buffer

/-- A buffer that holds nothing. -/
def empty : Buffer := ⟨[]⟩

/-- The count of bytes held. -/
def size (b : Buffer) : Nat := b.bytes.length

/-- Nothing is held. -/
def isEmpty (b : Buffer) : Bool := b.bytes.isEmpty

/-- Appends bytes. -/
def append (bs : Bytes) (b : Buffer) : Buffer := ⟨b.bytes ++ bs⟩

@[simp] theorem append_nil (b : Buffer) : b.append [] = b :=
  congrArg mk (List.append_nil b.bytes)

theorem append_append (xs ys : Bytes) (b : Buffer) :
    (b.append xs).append ys = b.append (xs ++ ys) :=
  congrArg mk (List.append_assoc b.bytes xs ys)

/-- Appends a scalar; every floating-point pattern is one. -/
def scalar {α : Type} [Scalar α] (x : α) (b : Buffer) : Buffer := b.append (Scalar.toBytes x)

/-- Drops what is held. -/
def clear (_ : Buffer) : Buffer := empty

/-- Takes out what is held. -/
def flush (b : Buffer) : Bytes × Buffer := (b.bytes, b.clear)

/-- Appends what a run of writes appends, and tells whether it ended. -/
def put (p : Put) (b : Buffer) : Except WireError Unit × Buffer :=
  (p.toExcept.map fun _ => (), b.append p.bytes)

/-- Takes out the bytes of one run of writes alone, or its cause of failure;
what was held before is dropped. -/
def encode (p : Put) (b : Buffer) : Except WireError Bytes × Buffer :=
  match b.clear.put p with
  | (.ok (), b') => (.ok b'.flush.1, b'.flush.2)
  | (.error e, b') => (.error e, b'.clear)

end Buffer
end LightWire
