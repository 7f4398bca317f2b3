/-
# Block headers

A header says where a block stands and what it commits to.  Its time is sent in
two fields, and the second of them is left out where it is hashed:

| field | bytes | sent at | hashed at |
| --- | ---: | ---: | ---: |
| `height` | 8 | 0 | 0 |
| `epoch` | 32 | 8 | 8 |
| `nextEpoch` | 32 | 40 | 40 |
| `previousState` | 32 | 72 | 72 |
| `outcomes` | 32 | 104 | 104 |
| `timestamp` | 8 | 136 | 136 |
| `nanoseconds` | 8 | 144 | |
| `nextProducers` | 32 | 152 | 144 |
| `blocks` | 32 | 184 | 176 |
-/

import LightWire.Hash

namespace LightWire

/-- A header as it is hashed. -/
structure HashedHeader where
  /-- The height of the block. -/
  height : UInt64
  /-- The epoch of the block. -/
  epoch : Hash
  /-- The epoch after it. -/
  nextEpoch : Hash
  /-- The root of the state before the block. -/
  previousState : Hash
  /-- The root of the outcomes of the block before. -/
  outcomes : Hash
  /-- The time of the block. -/
  timestamp : UInt64
  /-- The hash of the producers to come. -/
  nextProducers : Hash
  /-- The root of the blocks so far. -/
  blocks : Hash
  deriving DecidableEq, Repr

/-- A header as it is sent. -/
structure Header where
  /-- The height of the block. -/
  height : UInt64
  /-- The epoch of the block. -/
  epoch : Hash
  /-- The epoch after it. -/
  nextEpoch : Hash
  /-- The root of the state before the block. -/
  previousState : Hash
  /-- The root of the outcomes of the block before. -/
  outcomes : Hash
  /-- The time of the block. -/
  timestamp : UInt64
  /-- The time of the block in nanoseconds, which is not hashed. -/
  nanoseconds : UInt64
  /-- The hash of the producers to come. -/
  nextProducers : Hash
  /-- The root of the blocks so far. -/
  blocks : Hash
  deriving DecidableEq, Repr

namespace HashedHeader

/-- A hashed header stands for its fields in order. -/
def iso : Iso HashedHeader
    (UInt64 × Hash × Hash × Hash × Hash × UInt64 × Hash × Hash) where
  forth := fun h => (h.height, h.epoch, h.nextEpoch, h.previousState, h.outcomes, h.timestamp,
    h.nextProducers, h.blocks)
  back := fun (height, epoch, nextEpoch, previousState, outcomes, timestamp, nextProducers,
    blocks) => ⟨height, epoch, nextEpoch, previousState, outcomes, timestamp, nextProducers,
    blocks⟩
  back_forth := fun _ => rfl
  forth_back := fun _ => rfl

/-- The fields in order. -/
def schema {o : Ownership} : Schema o HashedHeader :=
  .iso iso (.pair .scalar (.pair Hash.schema (.pair Hash.schema (.pair Hash.schema
    (.pair Hash.schema (.pair .scalar (.pair Hash.schema Hash.schema)))))))

instance : Wire HashedHeader where
  schema := schema
  write h := do
    Wire.write h.height
    Wire.write h.epoch
    Wire.write h.nextEpoch
    Wire.write h.previousState
    Wire.write h.outcomes
    Wire.write h.timestamp
    Wire.write h.nextProducers
    Wire.write h.blocks
  read := do
    let height ← Wire.read
    let epoch ← Wire.read
    let nextEpoch ← Wire.read
    let previousState ← Wire.read
    let outcomes ← Wire.read
    let timestamp ← Wire.read
    let nextProducers ← Wire.read
    let blocks ← Wire.read
    pure ⟨height, epoch, nextEpoch, previousState, outcomes, timestamp, nextProducers,
      blocks⟩
  memoryless_eq := rfl
  write_eq _ := rfl
  read_eq := by
    simp only [Wire.read_eq, schema, Schema.decode_iso, Schema.decode_pair, Get.bind_assoc,
      Get.pure_bind]
    rfl

/-- The 208 bytes of a hashed header. -/
def toBytes (h : HashedHeader) : Bytes :=
  Scalar.toBytes h.height ++ (h.epoch.toBytes ++ (h.nextEpoch.toBytes ++
    (h.previousState.toBytes ++ (h.outcomes.toBytes ++ (Scalar.toBytes h.timestamp ++
      (h.nextProducers.toBytes ++ h.blocks.toBytes))))))

/-- **A hashed header is always written,** as its 208 bytes. -/
theorem schema_toBytes (h : HashedHeader) :
    (schema (o := .owned)).toBytes h = .ok h.toBytes := rfl

end HashedHeader

namespace Header

/-- A header stands for its fields in order. -/
def iso : Iso Header
    (UInt64 × Hash × Hash × Hash × Hash × UInt64 × UInt64 × Hash × Hash) where
  forth := fun h => (h.height, h.epoch, h.nextEpoch, h.previousState, h.outcomes, h.timestamp,
    h.nanoseconds, h.nextProducers, h.blocks)
  back := fun (height, epoch, nextEpoch, previousState, outcomes, timestamp, nanoseconds,
    nextProducers, blocks) => ⟨height, epoch, nextEpoch, previousState, outcomes, timestamp,
    nanoseconds, nextProducers, blocks⟩
  back_forth := fun _ => rfl
  forth_back := fun _ => rfl

/-- The fields in order. -/
def schema {o : Ownership} : Schema o Header :=
  .iso iso (.pair .scalar (.pair Hash.schema (.pair Hash.schema (.pair Hash.schema
    (.pair Hash.schema (.pair .scalar (.pair .scalar (.pair Hash.schema Hash.schema))))))))

instance : Wire Header where
  schema := schema
  write h := do
    Wire.write h.height
    Wire.write h.epoch
    Wire.write h.nextEpoch
    Wire.write h.previousState
    Wire.write h.outcomes
    Wire.write h.timestamp
    Wire.write h.nanoseconds
    Wire.write h.nextProducers
    Wire.write h.blocks
  read := do
    let height ← Wire.read
    let epoch ← Wire.read
    let nextEpoch ← Wire.read
    let previousState ← Wire.read
    let outcomes ← Wire.read
    let timestamp ← Wire.read
    let nanoseconds ← Wire.read
    let nextProducers ← Wire.read
    let blocks ← Wire.read
    pure ⟨height, epoch, nextEpoch, previousState, outcomes, timestamp, nanoseconds,
      nextProducers, blocks⟩
  memoryless_eq := rfl
  write_eq _ := rfl
  read_eq := by
    simp only [Wire.read_eq, schema, Schema.decode_iso, Schema.decode_pair, Get.bind_assoc,
      Get.pure_bind]
    rfl

/-- The header as it is hashed. -/
def hashed (h : Header) : HashedHeader where
  height := h.height
  epoch := h.epoch
  nextEpoch := h.nextEpoch
  previousState := h.previousState
  outcomes := h.outcomes
  timestamp := h.timestamp
  nextProducers := h.nextProducers
  blocks := h.blocks

/-- The hash of a header. -/
def hash (D : Digest) (h : Header) : Hash := D h.hashed.toBytes

/-- The hash of a header, from what is written of its hashed form. -/
def hashM (D : Digest) (h : Header) : Except WireError Hash :=
  ((HashedHeader.schema (o := .owned)).toBytes h.hashed).map D

/-- A header always has a hash, for its hashed form is always written. -/
theorem hashM_eq (D : Digest) (h : Header) : h.hashM D = .ok (h.hash D) := rfl

end Header
end LightWire
