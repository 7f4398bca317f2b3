/-
# Block producers

A block announces the producers of a later epoch as a list of entries.  The
digest of the written list is what the header of the block commits to.
-/

import LightWire.Hash
import LightWire.Key

namespace LightWire

/-- A producer: an account, its key and its stake. -/
structure Producer where
  account : String
  key : PublicKey
  stake : UInt128
  deriving DecidableEq

/-- An entry of a list of producers, by version; one version is in use. -/
inductive ProducerEntry where
  | v1 (producer : Producer)
  deriving DecidableEq

/-- A list of producers in the order of the epoch. -/
abbrev ProducerList := List ProducerEntry

namespace Producer

/-- A producer stands for its fields in order. -/
def iso : Iso Producer (String × PublicKey × UInt128) where
  forth := fun p => (p.account, p.key, p.stake)
  back := fun (account, key, stake) => ⟨account, key, stake⟩
  back_forth := fun _ => rfl
  forth_back := fun _ => rfl

/-- The account, the key and the stake. -/
def schema {o : Ownership} : Schema o Producer :=
  .iso iso (.pair .text (.pair PublicKey.schema .scalar))

instance : Wire Producer where
  schema := schema
  write p := do
    Wire.write p.account
    Wire.write p.key
    Wire.write p.stake
  read := do
    let account ← Wire.read
    let key ← Wire.read
    let stake ← Wire.read
    pure ⟨account, key, stake⟩
  memoryless_eq := rfl
  write_eq p := by
    simp only [Wire.write_eq]
    rfl
  read_eq := by
    simp only [Wire.read_eq, schema, Schema.decode_iso, Schema.decode_pair, Get.bind_assoc,
      Get.pure_bind]
    rfl

end Producer

namespace ProducerEntry

/-- The producer of an entry. -/
def producer : ProducerEntry → Producer
  | v1 p => p

/-- An entry stands for the ordinal of its version and its producer. -/
def iso : Iso ProducerEntry ((_ : Fin 1) × Producer) where
  forth
    | v1 p => ⟨0, p⟩
  back
    | ⟨_, p⟩ => v1 p
  back_forth
    | v1 _ => rfl
  forth_back
    | ⟨0, _⟩ => rfl

/-- The ordinal of the version and then the producer. -/
def schema {o : Ownership} : Schema o ProducerEntry :=
  .iso iso (.variants "ValidatorStakeView" (by decide) (by decide) fun _ => Producer.schema)

instance : Wire ProducerEntry where
  schema := schema
  write
    | v1 p => do
      Writer.tag "ValidatorStakeView" 0 1
      Wire.write p
  read := do
    let _ ← Get.tag "ValidatorStakeView" 1
    let p ← Wire.read
    pure (v1 p)
  memoryless_eq := rfl
  write_eq
    | v1 p => congrArg (Writer.tag "ValidatorStakeView" 0 1 >>= fun _ => ·) (Wire.write_eq p)
  read_eq := by
    simp only [Wire.read_eq, schema, Schema.decode, Get.bind_assoc, Get.pure_bind]
    rfl

end ProducerEntry

namespace ProducerList

/-- The count of entries and then the entries. -/
def schema {o : Ownership} : Schema o ProducerList := .seq ProducerEntry.schema

/-- The digest of a list as it is written. -/
def hash (D : Digest) (producers : ProducerList) : Except WireError Hash :=
  ((schema (o := .owned)).toBytes producers).map D

end ProducerList
end LightWire
