/-
# Schemas of values

A schema is the shape of a type's values on the wire.  Each constructor is one
rule of the format:

| schema | values | written form |
| --- | --- | --- |
| `unit` | `Unit` | nothing |
| `scalar`, `bool` | words, truth values | the word; `0` or `1` |
| `float p` | numbers of a precision | the bit pattern |
| `text` | `String` | count of UTF-8 bytes, the bytes |
| `raw n` | `n` bytes | the bytes, read at once |
| `enumeration e` | a lawful table's values | the ordinal |
| `option s` | `Option α` | `0`, or `1` and the value |
| `seq s` | `List α` | count, the elements |
| `array n s` | `Vector α n` | the elements, read one by one |
| `pair s t` | `α × β` | the first, the second |
| `variants name p` | an ordinal and its payload | the ordinal, the payload |
| `iso f s` | values that stand for those of `s` | the value stood for |
| `ref s` | `α`, borrowed | the value referred to |

A schema that is owned throughout can be written and read; one with a `ref` in
it can only be written.
-/

import LightWire.Enumeration

namespace LightWire

/-- A correspondence of two types, one value to one value. -/
structure Iso (α β : Type) where
  /-- From the first type to the second. -/
  forth : α → β
  /-- Back again. -/
  back : β → α
  back_forth : ∀ x, back (forth x) = x
  forth_back : ∀ y, forth (back y) = y

/-- Whether the values of a schema are held or may be referred to. -/
inductive Ownership where
  | owned
  | borrowed
  deriving DecidableEq, Repr

/-- The shape of the values of a type. -/
inductive Schema (o : Ownership) : Type → Type 1 where
  /-- The value of no content. -/
  | unit : Schema o Unit
  /-- A word. -/
  | scalar {α : Type} [Scalar α] : Schema o α
  /-- A truth value. -/
  | bool : Schema o Bool
  /-- A floating-point number, never a pattern that stands for none. -/
  | float (p : Precision) : Schema o (FloatBits p)
  /-- A text. -/
  | text : Schema o String
  /-- A fixed count of bytes, read at once. -/
  | raw (n : Nat) : Schema o (Vector UInt8 n)
  /-- A variant without content. -/
  | enumeration {α : Type} (e : Enumeration α) (lawful : e.Lawful) : Schema o α
  /-- A value or none. -/
  | option {α : Type} (s : Schema o α) : Schema o (Option α)
  /-- Any count of elements. -/
  | seq {α : Type} (s : Schema o α) : Schema o (List α)
  /-- A fixed count of elements. -/
  | array {α : Type} (n : Nat) (s : Schema o α) : Schema o (Vector α n)
  /-- A value and then another. -/
  | pair {α β : Type} (s : Schema o α) (t : Schema o β) : Schema o (α × β)
  /-- A variant with content. -/
  | variants (name : String) {n : Nat} (pos : 0 < n) (le : n ≤ Put.maxVariants)
      {β : Fin n → Type} (payload : (i : Fin n) → Schema o (β i)) : Schema o ((i : Fin n) × β i)
  /-- A value that stands for one of another type. -/
  | iso {α β : Type} (f : Iso α β) (s : Schema o β) : Schema o α
  /-- A value that is referred to rather than held. -/
  | ref {α : Type} (borrowed : o = .borrowed) (s : Schema o α) : Schema o α

namespace Schema

/-- The values take no room: there is one value, and it is written as nothing.
A reference takes room whatever it refers to, and so does an ordinal, also the one
of a sole variant, which is written although it tells nothing apart. -/
def zeroSized {o : Ownership} : {α : Type} → Schema o α → Bool
  | _, unit => true
  | _, array n s => n == 0 || s.zeroSized
  | _, pair s t => s.zeroSized && t.zeroSized
  | _, iso _ s => s.zeroSized
  | _, raw n => n == 0
  | _, scalar => false
  | _, bool => false
  | _, float _ => false
  | _, text => false
  | _, enumeration _ _ => false
  | _, option _ => false
  | _, seq _ => false
  | _, variants _ _ _ _ => false
  | _, ref _ _ => false

/-- The values take no memory.  This is `zeroSized` but for one case: in memory a
sole variant is its content alone, so one whose content takes no memory takes none,
though its ordinal is written.  Variants without content are held as their ordinal,
also a sole one.  No type of the library has a sole variant without room: that the
two agree is part of each instance of `Wire`. -/
def memoryless {o : Ownership} : {α : Type} → Schema o α → Bool
  | _, unit => true
  | _, array n s => n == 0 || s.memoryless
  | _, pair s t => s.memoryless && t.memoryless
  | _, iso _ s => s.memoryless
  | _, raw n => n == 0
  | _, variants (n := n) _ pos _ payload => n == 1 && (payload ⟨0, pos⟩).memoryless
  | _, scalar => false
  | _, bool => false
  | _, float _ => false
  | _, text => false
  | _, enumeration _ _ => false
  | _, option _ => false
  | _, seq _ => false
  | _, ref _ _ => false

/-- An owned schema, used where references may occur. -/
def borrow {o : Ownership} : {α : Type} → Schema .owned α → Schema o α
  | _, unit => unit
  | _, scalar => scalar
  | _, bool => bool
  | _, float p => float p
  | _, text => text
  | _, raw n => raw n
  | _, enumeration e h => enumeration e h
  | _, option s => option s.borrow
  | _, seq s => seq s.borrow
  | _, array n s => array n s.borrow
  | _, pair s t => pair s.borrow t.borrow
  | _, variants name pos le payload => variants name pos le fun i => (payload i).borrow
  | _, iso f s => iso f s.borrow
  | _, ref h _ => nomatch h

end Schema

/-- The contents of two variants, by ordinal. -/
def Either (α β : Type) : Fin 2 → Type
  | 0 => α
  | 1 => β

/-- One of two contents stands for the ordinal of its side and itself. -/
def Either.iso (α β : Type) : Iso (α ⊕ β) ((i : Fin 2) × Either α β i) where
  forth
    | .inl x => ⟨0, x⟩
    | .inr y => ⟨1, y⟩
  back
    | ⟨0, x⟩ => .inl x
    | ⟨1, y⟩ => .inr y
  back_forth := by rintro (_ | _) <;> rfl
  forth_back
    | ⟨0, _⟩ => rfl
    | ⟨1, _⟩ => rfl

namespace Schema

/-- Two variants with content. -/
def either {o : Ownership} {α β : Type} (name : String) (s : Schema o α) (t : Schema o β) :
    Schema o (α ⊕ β) :=
  .iso (Either.iso α β) (.variants name (by decide) (by decide) fun
    | 0 => s
    | 1 => t)

/-- `n` bytes, read one by one. -/
def byteArray {o : Ownership} (n : Nat) : Schema o (Vector UInt8 n) := .array n .scalar

end Schema
end LightWire
