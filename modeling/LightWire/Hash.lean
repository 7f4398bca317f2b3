/-
# Hashes

A hash is 32 bytes.  It is written as these bytes alone, shown as their 64
hexadecimal digits, and ordered by the first byte that differs.
-/

import LightWire.Wire

namespace LightWire

/-- The result of a digest. -/
structure Hash where
  /-- The bytes, first to last. -/
  bytes : Vector UInt8 32
  deriving DecidableEq, Repr

/-- A digest function.  The definitions that hash take the digest as an
argument and use nothing else of it. -/
abbrev Digest := Bytes → Hash

namespace Hash

/-- The bytes of a hash as a byte string. -/
def toBytes (h : Hash) : Bytes := h.bytes.toList

@[simp] theorem length_toBytes (h : Hash) : h.toBytes.length = 32 := by
  simp [toBytes]

/-- The hash of a byte string of the right length. -/
def ofBytes (bs : Bytes) : Except WireError Hash :=
  if h : bs.length = 32 then .ok ⟨⟨bs.toArray, by simp [h]⟩⟩
  else .error (.lengthMismatch 32 bs.length)

/-- Bytes of the right count make the hash of these bytes. -/
theorem ofBytes_toList (field : Vector UInt8 32) : ofBytes field.toList = .ok ⟨field⟩ := by
  have hlen : field.toList.length = 32 := field.length_toList
  rw [ofBytes, dif_pos hlen]
  rfl

/-- The hash of zero bytes only. -/
def zero : Hash := ⟨Vector.replicate 32 0⟩

instance : Inhabited Hash := ⟨zero⟩

/-- The text of a hash. -/
def text (h : Hash) : String := Hex.text h.toBytes

/-- The first byte that differs decides. -/
instance : Ord Hash := ⟨fun a b => compare a.toBytes b.toBytes⟩

/-- The later of two hashes. -/
def max (a b : Hash) : Hash := if compare a b = .gt then a else b

/-- A hash stands for its bytes. -/
def iso : Iso Hash (Vector UInt8 32) := ⟨Hash.bytes, Hash.mk, fun _ => rfl, fun _ => rfl⟩

/-- The bytes alone, read at once. -/
def schema {o : Ownership} : Schema o Hash := .iso iso (.raw 32)

/-- Reads 32 bytes at once as a hash; for bytes that make none it goes on with
`otherwise`. -/
def getOr (otherwise : WireError → Get Hash) : Get Hash := do
  let field ← Get.raw 32
  match ofBytes field.toList with
  | .ok h => pure h
  | .error e => otherwise e

/-- **Bytes that are read as a hash always make one.** -/
theorem decode_eq_getOr (otherwise : WireError → Get Hash) :
    (schema : Schema .owned Hash).decode = getOr otherwise := by
  refine congrArg (Get.raw 32 >>= ·) (funext fun field => ?_)
  rw [ofBytes_toList]
  rfl

instance : Wire Hash where
  schema := schema
  write h := Writer.fixed h.toBytes
  read := getOr Get.fail
  memoryless_eq := rfl
  write_eq _ := rfl
  read_eq := (decode_eq_getOr Get.fail).symm

end Hash
end LightWire
