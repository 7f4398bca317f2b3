/-
# Types of the wire

A type of the library has a writer and a reader of its own, and a schema that says
in one place what both do:

| type | written and read as |
| --- | --- |
| integers, `Bool`, `Unit`, floating-point numbers, texts | themselves |
| `List α` | a count and the elements; none that take no memory |
| `Vector α n` | the elements; as many are read as the type says |
| `Option α` | whether there is a value, and the value |
| `α × β` | the first and then the second |

An instance of `Wire` holds all three and the proof that they agree: that the writer
does the steps of the schema's, that the reader is the schema's, and that what takes
no memory is what takes no room.  So no type is declared whose two bodies differ in
the order of their fields, in a width or in an ordinal.
-/

import LightWire.Codec

namespace LightWire

/-- A type with a writer and a reader of its own, in step with a schema. -/
class Wire (α : Type) where
  /-- The shape of the values. -/
  schema : Schema .owned α
  /-- Writes a value. -/
  write : α → Writer Unit
  /-- Reads a value. -/
  read : Get α
  memoryless_eq : schema.memoryless = schema.zeroSized
  write_eq : ∀ x, write x = schema.write x
  read_eq : read = schema.decode

namespace Schema

variable {α β γ : Type}

theorem decode_pair (s : Schema .owned α) (t : Schema .owned β) :
    (pair s t).decode = s.decode >>= fun x => t.decode >>= fun y => pure (x, y) := rfl

theorem decode_iso (f : Iso α β) (s : Schema .owned β) :
    (iso f s).decode = s.decode >>= fun y => pure (f.back y) := rfl

/-- **As many elements are read as an array has:** what is done with another count
does not matter. -/
theorem decode_array (s : Schema .owned α) (n : Nat) (otherwise : List α → Get (Vector α n)) :
    (array n s).decode = Get.arrayOr n s.decode otherwise := by
  rw [Get.arrayOr, Get.items_eq_replicate, Get.bind_assoc]
  refine congrArg (Get.replicate s.decode n >>= ·) (funext fun xs => ?_)
  have hlen : xs.val.length = n := xs.property
  rw [Get.pure_bind, dif_pos hlen]

/-- **An ordinal that was read is one of the two:** what is done with another does
not matter. -/
theorem decode_iso_either (s : Schema .owned α) (f : Iso γ (α ⊕ β)) (name : String)
    (t : Schema .owned β) (otherwise : Nat → Get γ) :
    (iso f (either name s t)).decode =
      Get.eitherOr name (s.decode >>= fun x => pure (f.back (.inl x)))
        (t.decode >>= fun y => pure (f.back (.inr y))) otherwise := by
  rw [decode, either, decode, decode, Get.bind_assoc, Get.bind_assoc]
  refine congrArg (Get.tag name 2 >>= ·) (funext fun i => ?_)
  obtain ⟨_ | _ | i, hi⟩ := i
  · exact Get.bind_assoc s.decode _ _
  · exact Get.bind_assoc t.decode _ _
  · exact absurd hi (by omega)

end Schema

namespace Wire

variable {α β : Type}

/-- What is written of a value alone. -/
def toBytes [Wire α] (x : α) : Except WireError Bytes := ((write x).encode .empty).1

/-- The value that a whole input is the written form of. -/
def ofBytes [Wire α] (options : Options) (data : Bytes) : Except WireError α :=
  (read : Get α).whole options data

/-! ### Words, numbers and texts -/

/-- A type of words. -/
@[reducible] def ofScalar (α : Type) [Scalar α] : Wire α where
  schema := .scalar
  write := Writer.scalar
  read := Get.scalar
  memoryless_eq := rfl
  write_eq _ := rfl
  read_eq := rfl

instance : Wire UInt8 := ofScalar UInt8
instance : Wire UInt16 := ofScalar UInt16
instance : Wire UInt32 := ofScalar UInt32
instance : Wire UInt64 := ofScalar UInt64
instance : Wire UInt128 := ofScalar UInt128
instance : Wire Int8 := ofScalar Int8
instance : Wire Int16 := ofScalar Int16
instance : Wire Int32 := ofScalar Int32
instance : Wire Int64 := ofScalar Int64
instance : Wire Int128 := ofScalar Int128

instance : Wire Bool where
  schema := .bool
  write := Writer.bool
  read := Get.bool
  memoryless_eq := rfl
  write_eq _ := rfl
  read_eq := rfl

instance (p : Precision) : Wire (FloatBits p) where
  schema := .float p
  write := Writer.float
  read := Get.float p
  memoryless_eq := rfl
  write_eq _ := rfl
  read_eq := rfl

instance : Wire Unit where
  schema := .unit
  write _ := pure ()
  read := pure ()
  memoryless_eq := rfl
  write_eq _ := rfl
  read_eq := rfl

instance : Wire String where
  schema := .text
  write := Writer.text
  read := Get.text
  memoryless_eq := rfl
  write_eq _ := rfl
  read_eq := rfl

/-- A type of variants without content, by a lawful table. -/
@[reducible] def ofEnumeration (e : Enumeration α) (lawful : e.Lawful) : Wire α where
  schema := .enumeration e lawful
  write := e.write
  read := e.get
  memoryless_eq := rfl
  write_eq _ := rfl
  read_eq := rfl

/-! ### Values in values -/

instance [Wire α] : Wire (List α) where
  schema := .seq schema
  write xs :=
    if (schema : Schema .owned α).memoryless && !xs.isEmpty then
      Writer.fail .zeroSizedCollection
    else do
      Writer.length xs.length
      xs.forM write
  read := do
    let n ← Get.length
    if (schema : Schema .owned α).memoryless && n != 0 then Get.fail .zeroSizedCollection
    else Get.items read n
  memoryless_eq := rfl
  write_eq xs := by
    rw [memoryless_eq, funext write_eq]
    rfl
  read_eq := by
    simp only [memoryless_eq, read_eq, Get.items_eq_replicate]
    rfl

instance (n : Nat) [Wire α] : Wire (Vector α n) where
  schema := .array n schema
  write xs := xs.toList.forM write
  read := Get.arrayOr n read fun xs => Get.fail (.lengthLimit xs.length n)
  memoryless_eq := congrArg (n == 0 || ·) memoryless_eq
  write_eq xs := by
    rw [funext write_eq]
    rfl
  read_eq := by rw [read_eq, Schema.decode_array]

instance [Wire α] : Wire (Option α) where
  schema := .option schema
  write
    | none => Writer.optionTag false
    | some x => do
      Writer.optionTag true
      write x
  read := do
    if ← Get.optionTag then
      let x ← read
      pure (some x)
    else pure none
  memoryless_eq := rfl
  write_eq
    | none => rfl
    | some x => congrArg (Writer.optionTag true >>= fun _ => ·) (write_eq x)
  read_eq := by
    rw [read_eq]
    rfl

instance [Wire α] [Wire β] : Wire (α × β) where
  schema := .pair schema schema
  write := fun (x, y) => do
    write x
    write y
  read := do
    let x ← read
    let y ← read
    pure (x, y)
  memoryless_eq := by rw [Schema.memoryless, Schema.zeroSized, memoryless_eq, memoryless_eq]
  write_eq := fun (x, y) => by
    simp only [write_eq]
    rfl
  read_eq := by
    simp only [read_eq]
    rfl

end Wire
end LightWire
