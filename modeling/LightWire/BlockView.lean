/-
# Views of blocks

A view is what a client that follows headers alone is sent of a block.  From it
the client computes the hash of the block, the hash of the block after it, and
the message that the producers who approve have signed:

    block = D (D (D header ++ rest) ++ previous)
    next  = D (nextInner ++ block)

The producers and approvals that a view carries enter none of the three.
-/

import LightWire.Approval
import LightWire.Header
import LightWire.Merkle
import LightWire.Producer

namespace LightWire

/-- What is sent of a block. -/
structure BlockView where
  /-- The hash of the block before. -/
  previousBlock : Hash
  /-- The hash of the inner parts of the block after. -/
  nextBlockInner : Hash
  /-- The header. -/
  header : Header
  /-- The hash of the rest of the inner parts. -/
  rest : Hash
  /-- The producers announced, if any. -/
  nextProducers : Option ProducerList
  /-- The signatures of the approvals, one place for each producer. -/
  approvals : List (Option Signature)
  deriving DecidableEq

/-- The hash of a block, from its header, the rest of it and the block before. -/
def blockHash (D : Digest) (header : Header) (rest previous : Hash) : Hash :=
  Merkle.combine D (Merkle.combine D (header.hash D) rest) previous

/-- The hash of the block after another, from its own inner parts. -/
def nextBlockHash (D : Digest) (nextInner block : Hash) : Hash :=
  Merkle.combine D nextInner block

/-- What a client computes from a view. -/
structure BlockHashes where
  /-- The hash of the block. -/
  current : Hash
  /-- The hash of the block after it. -/
  next : Hash
  /-- What each approval signs. -/
  approvalMessage : Bytes
  deriving DecidableEq, Repr

namespace BlockView

/-- A view stands for its fields in order. -/
def iso : Iso BlockView
    (Hash × Hash × Header × Hash × Option ProducerList × List (Option Signature)) where
  forth := fun v => (v.previousBlock, v.nextBlockInner, v.header, v.rest, v.nextProducers,
    v.approvals)
  back := fun (previousBlock, nextBlockInner, header, rest, nextProducers, approvals) =>
    ⟨previousBlock, nextBlockInner, header, rest, nextProducers, approvals⟩
  back_forth := fun _ => rfl
  forth_back := fun _ => rfl

/-- The fields in order. -/
def schema {o : Ownership} : Schema o BlockView :=
  .iso iso (.pair Hash.schema (.pair Hash.schema (.pair Header.schema (.pair Hash.schema
    (.pair (.option ProducerList.schema) (.seq (.option Signature.schema)))))))

instance : Wire BlockView where
  schema := schema
  write v := do
    Wire.write v.previousBlock
    Wire.write v.nextBlockInner
    Wire.write v.header
    Wire.write v.rest
    Wire.write v.nextProducers
    Wire.write v.approvals
  read := do
    let previousBlock ← Wire.read
    let nextBlockInner ← Wire.read
    let header ← Wire.read
    let rest ← Wire.read
    let nextProducers ← Wire.read
    let approvals ← Wire.read
    pure ⟨previousBlock, nextBlockInner, header, rest, nextProducers, approvals⟩
  memoryless_eq := rfl
  write_eq v := by
    simp only [Wire.write_eq]
    rfl
  read_eq := by
    simp only [Wire.read_eq, schema, Schema.decode_iso, Schema.decode_pair, Get.bind_assoc,
      Get.pure_bind]
    rfl

/-- The hash of the block. -/
def currentHash (D : Digest) (v : BlockView) : Hash :=
  blockHash D v.header v.rest v.previousBlock

/-- The hash of the block after it. -/
def nextHash (D : Digest) (v : BlockView) : Hash :=
  nextBlockHash D v.nextBlockInner (v.currentHash D)

/-- Both hashes and the message that the approvals sign. -/
def hashes (D : Digest) (v : BlockView) : Except WireError BlockHashes :=
  (Approval.message (v.nextHash D) v.header.height).map fun message =>
    ⟨v.currentHash D, v.nextHash D, message⟩

/-- The hash of the producers announced, if any. -/
def nextProducersHash (D : Digest) (v : BlockView) : Except WireError (Option Hash) :=
  match v.nextProducers with
  | none => .ok none
  | some producers => (producers.hash D).map some

/-- Whether producers are announced and are those that the header commits to. -/
def nextProducersMatch (D : Digest) (v : BlockView) : Except WireError Bool :=
  (v.nextProducersHash D).map fun hash => hash == some v.header.nextProducers

end BlockView

/-! ### From what is written

As with paths, the functions below compute the hashes from what is written of a
header and of pairs of hashes, and stop where a write would stop.  Only the height
of the message is ever refused. -/

/-- The hash of a block, from what is written. -/
def blockHashM (D : Digest) (header : Header) (rest previous : Hash) : Except WireError Hash := do
  let lite ← header.hashM D
  let inner ← Merkle.combineM D lite rest
  Merkle.combineM D inner previous

/-- The hash of the block after another, from what is written. -/
def nextBlockHashM (D : Digest) (nextInner block : Hash) : Except WireError Hash :=
  Merkle.combineM D nextInner block

theorem blockHashM_eq (D : Digest) (header : Header) (rest previous : Hash) :
    blockHashM D header rest previous = .ok (blockHash D header rest previous) := rfl

theorem nextBlockHashM_eq (D : Digest) (nextInner block : Hash) :
    nextBlockHashM D nextInner block = .ok (nextBlockHash D nextInner block) := rfl

namespace BlockView

/-- The hash of the block, from what is written. -/
def currentHashM (D : Digest) (v : BlockView) : Except WireError Hash :=
  blockHashM D v.header v.rest v.previousBlock

/-- Both hashes and the message that the approvals sign, from what is written. -/
def hashesM (D : Digest) (v : BlockView) : Except WireError BlockHashes := do
  let current ← v.currentHashM D
  let next ← nextBlockHashM D v.nextBlockInner current
  let message ← Approval.message next v.header.height
  pure ⟨current, next, message⟩

theorem currentHashM_eq (D : Digest) (v : BlockView) :
    v.currentHashM D = .ok (v.currentHash D) := rfl

/-- What is computed of a view is what is computed from what is written. -/
theorem hashesM_eq (D : Digest) (v : BlockView) : v.hashesM D = v.hashes D := by
  have hwritten : v.hashesM D = (Approval.message (v.nextHash D) v.header.height >>= fun message =>
      pure ⟨v.currentHash D, v.nextHash D, message⟩) := rfl
  rw [hwritten, hashes]
  cases Approval.message (v.nextHash D) v.header.height with
  | error e => rfl
  | ok message => rfl

end BlockView
end LightWire
