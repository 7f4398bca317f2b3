/-
# Writing and reading by schema

One writer and one reader serve every schema; both follow its structure.  The
parts of a value are written and read in order and nothing stands between them.
What is written of a value is given as a whole (`encode`) and step by step, into a
buffer (`write`).

A sequence whose elements take no room is refused unless it is empty: its count
would be all that is written of it, so a reader would go on for as long as any
count it is given.  The writer checks this before it writes the count, and the
reader once it has read the count.
-/

import LightWire.Schema

namespace LightWire
namespace Schema

/-- Writes a value. -/
def encode {o : Ownership} : {α : Type} → Schema o α → α → Put
  | _, unit, _ => Put.empty
  | _, scalar, x => Put.scalar x
  | _, bool, b => Put.bool b
  | _, float _, x => Put.float x
  | _, text, s => Put.text s
  | _, raw _, bs => Put.raw bs.toList
  | _, enumeration e _, x => e.put x
  | _, option _, none => Put.optionTag false
  | _, option s, some x => Put.optionTag true ++ s.encode x
  | _, seq s, xs =>
    if s.zeroSized && !xs.isEmpty then Put.fail .zeroSizedCollection
    else Put.length xs.length ++ Put.concat (xs.map s.encode)
  | _, array _ s, xs => Put.concat (xs.toList.map s.encode)
  | _, pair s t, (x, y) => s.encode x ++ t.encode y
  | _, variants (n := n) name _ _ payload, ⟨i, x⟩ =>
    Put.tag name i.val n ++ (payload i).encode x
  | _, iso f s, x => s.encode (f.forth x)
  | _, ref _ s, x => s.encode x

/-- Writes a value into a buffer, step by step. -/
def write {o : Ownership} : {α : Type} → Schema o α → α → Writer Unit
  | _, unit, _ => pure ()
  | _, scalar, x => Writer.scalar x
  | _, bool, b => Writer.bool b
  | _, float _, x => Writer.float x
  | _, text, s => Writer.text s
  | _, raw _, bs => Writer.fixed bs.toList
  | _, enumeration e _, x => e.write x
  | _, option _, none => Writer.optionTag false
  | _, option s, some x => do
    Writer.optionTag true
    s.write x
  | _, seq s, xs =>
    if s.zeroSized && !xs.isEmpty then Writer.fail .zeroSizedCollection
    else do
      Writer.length xs.length
      xs.forM s.write
  | _, array _ s, xs => xs.toList.forM s.write
  | _, pair s t, (x, y) => do
    s.write x
    t.write y
  | _, variants (n := n) name _ _ payload, ⟨i, x⟩ => do
    Writer.tag name i.val n
    (payload i).write x
  | _, iso f s, x => s.write (f.forth x)
  | _, ref _ s, x => s.write x

/-- Reads a value. -/
def decode : {α : Type} → Schema .owned α → Get α
  | _, unit => pure ()
  | _, scalar => Get.scalar
  | _, bool => Get.bool
  | _, float p => Get.float p
  | _, text => Get.text
  | _, raw n => Get.raw n
  | _, enumeration e _ => e.get
  | _, option s => do
    if ← Get.optionTag then
      let x ← s.decode
      pure (some x)
    else pure none
  | _, seq s => do
    let n ← Get.length
    if s.zeroSized && n != 0 then Get.fail .zeroSizedCollection
    else
      let xs ← Get.replicate s.decode n
      pure xs.val
  | _, array n s => do
    let xs ← Get.replicate s.decode n
    pure ⟨xs.val.toArray, by simp [xs.property]⟩
  | _, pair s t => do
    let x ← s.decode
    let y ← t.decode
    pure (x, y)
  | _, variants (n := n) name _ _ payload => do
    let i ← Get.tag name n
    let x ← (payload i).decode
    pure ⟨i, x⟩
  | _, iso f s => do
    let y ← s.decode
    pure (f.back y)
  | _, ref h _ => nomatch h

/-- The written form of a value. -/
def toBytes {o : Ownership} {α : Type} (s : Schema o α) (x : α) : Except WireError Bytes :=
  (s.encode x).toExcept

/-- The value that a whole input is the written form of. -/
def ofBytes {α : Type} (s : Schema .owned α) (options : Options) (data : Bytes) :
    Except WireError α :=
  s.decode.whole options data

end Schema
end LightWire
