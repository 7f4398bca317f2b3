/-
# Reading an input to its end

A decoder is an input under way: its options and its cursor.  Any read may be
run on it, one after another, also after one that failed.  At the end `finish`
refuses bytes that no read has taken, unless the options allow them.
-/

import LightWire.Get

namespace LightWire

/-- What a reader accepts beyond the format itself. -/
structure Options where
  /-- The largest count prefix accepted. -/
  maxLen : Nat := Put.maxLength
  /-- Bytes after the value are left unread rather than refused. -/
  allowTrailing : Bool := false
  deriving DecidableEq, Repr

/-- An input under way. -/
structure Decoder where
  /-- What it accepts. -/
  options : Options
  /-- Where it is. -/
  cursor : Cursor
  deriving DecidableEq, Repr

namespace Decoder

/-- A decoder at the beginning of an input. -/
def ofBytes (options : Options) (data : Bytes) : Decoder := ⟨options, .ofBytes data⟩

/-- The same decoder at the beginning of another input. -/
def reset (data : Bytes) (d : Decoder) : Decoder := { d with cursor := .ofBytes data }

/-- The count of bytes not yet taken. -/
def remaining (d : Decoder) : Nat := d.cursor.size

/-- Reads a value where the decoder is. -/
def run {α : Type} (g : Get α) (d : Decoder) : Except WireError α × Decoder :=
  match g d.options.maxLen d.cursor with
  | (r, c) => (r, { d with cursor := c })

/-- Refuses bytes left at the end, unless they are allowed. -/
def finish (d : Decoder) : Except WireError Unit :=
  if d.remaining = 0 ∨ d.options.allowTrailing then .ok ()
  else .error (.trailingBytes d.cursor.position d.remaining)

end Decoder

/-- The value that a whole input holds. -/
def Get.whole {α : Type} (g : Get α) (options : Options) (data : Bytes) : Except WireError α :=
  match (Decoder.ofBytes options data).run g with
  | (.ok x, d) => d.finish.map fun _ => x
  | (.error e, _) => .error e

end LightWire
