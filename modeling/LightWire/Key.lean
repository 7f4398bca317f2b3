/-
# Keys and signatures

Public keys and signatures are byte strings whose size depends on the curve:

| ordinal | curve | key | signature |
| ---: | --- | ---: | ---: |
| 0 | Ed25519 | 32 | 64 |
| 1 | secp256k1 | 64 | 65 |

Their bytes are carried as they are and never interpreted.  They are written at once
and read one by one, which is the same (`Writer.forM_byte`).
-/

import LightWire.Wire

namespace LightWire

/-- A public key, by curve. -/
inductive PublicKey where
  | ed25519 (bytes : Vector UInt8 32)
  | secp256k1 (bytes : Vector UInt8 64)
  deriving DecidableEq, Repr

/-- A signature, by curve. -/
inductive Signature where
  | ed25519 (bytes : Vector UInt8 64)
  | secp256k1 (bytes : Vector UInt8 65)
  deriving DecidableEq, Repr

namespace PublicKey

/-- The ordinal of the curve of a key. -/
def ordinal : PublicKey → UInt8
  | ed25519 _ => 0
  | secp256k1 _ => 1

/-- A key stands for its bytes, on the side of its curve. -/
def iso : Iso PublicKey (Vector UInt8 32 ⊕ Vector UInt8 64) where
  forth
    | ed25519 bytes => .inl bytes
    | secp256k1 bytes => .inr bytes
  back
    | .inl bytes => ed25519 bytes
    | .inr bytes => secp256k1 bytes
  back_forth := by rintro (_ | _) <;> rfl
  forth_back := by rintro (_ | _) <;> rfl

/-- The ordinal of the curve and then the bytes. -/
def schema {o : Ownership} : Schema o PublicKey :=
  .iso iso (.either "PublicKey" (.byteArray 32) (.byteArray 64))

instance : Wire PublicKey where
  schema := schema
  write key := do
    Writer.tag "PublicKey" key.ordinal.toNat 2
    match key with
    | ed25519 bytes => Writer.fixed bytes.toList
    | secp256k1 bytes => Writer.fixed bytes.toList
  read := Get.eitherOr "PublicKey" (Wire.read >>= fun bytes => pure (ed25519 bytes))
    (Wire.read >>= fun bytes => pure (secp256k1 bytes))
    fun ordinal => Get.fail (.invalidVariant "PublicKey" ordinal 2)
  memoryless_eq := rfl
  write_eq
    | ed25519 bytes =>
      congrArg (Writer.tag "PublicKey" 0 2 >>= fun _ => ·) (Writer.forM_byte bytes.toList).symm
    | secp256k1 bytes =>
      congrArg (Writer.tag "PublicKey" 1 2 >>= fun _ => ·) (Writer.forM_byte bytes.toList).symm
  read_eq := by
    simp only [Wire.read_eq]
    exact (Schema.decode_iso_either (.byteArray 32) iso "PublicKey" (.byteArray 64) _).symm

end PublicKey

namespace Signature

/-- The ordinal of the curve of a signature. -/
def ordinal : Signature → UInt8
  | ed25519 _ => 0
  | secp256k1 _ => 1

/-- A signature stands for its bytes, on the side of its curve. -/
def iso : Iso Signature (Vector UInt8 64 ⊕ Vector UInt8 65) where
  forth
    | ed25519 bytes => .inl bytes
    | secp256k1 bytes => .inr bytes
  back
    | .inl bytes => ed25519 bytes
    | .inr bytes => secp256k1 bytes
  back_forth := by rintro (_ | _) <;> rfl
  forth_back := by rintro (_ | _) <;> rfl

/-- The ordinal of the curve and then the bytes. -/
def schema {o : Ownership} : Schema o Signature :=
  .iso iso (.either "Signature" (.byteArray 64) (.byteArray 65))

instance : Wire Signature where
  schema := schema
  write signature := do
    Writer.tag "Signature" signature.ordinal.toNat 2
    match signature with
    | ed25519 bytes => Writer.fixed bytes.toList
    | secp256k1 bytes => Writer.fixed bytes.toList
  read := Get.eitherOr "Signature" (Wire.read >>= fun bytes => pure (ed25519 bytes))
    (Wire.read >>= fun bytes => pure (secp256k1 bytes))
    fun ordinal => Get.fail (.invalidVariant "Signature" ordinal 2)
  memoryless_eq := rfl
  write_eq
    | ed25519 bytes =>
      congrArg (Writer.tag "Signature" 0 2 >>= fun _ => ·) (Writer.forM_byte bytes.toList).symm
    | secp256k1 bytes =>
      congrArg (Writer.tag "Signature" 1 2 >>= fun _ => ·) (Writer.forM_byte bytes.toList).symm
  read_eq := by
    simp only [Wire.read_eq]
    exact (Schema.decode_iso_either (.byteArray 64) iso "Signature" (.byteArray 65) _).symm

end Signature
end LightWire
