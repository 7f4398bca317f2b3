/-
# Approvals

A producer approves a height in one of two ways: it endorses the block before,
by its hash, or it skips the heights since the last block, by that block's
height.  What it signs is the approval and then the height that it approves,
which is two above the block whose approvals are collected.
-/

import LightWire.Hash

namespace LightWire

/-- What a producer approves. -/
inductive Approval where
  /-- The block with a hash is built upon. -/
  | endorsement (block : Hash)
  /-- The heights since the block of a height have none. -/
  | skip (height : UInt64)
  deriving DecidableEq, Repr

namespace Approval

/-- The ordinal of the kind of an approval. -/
def ordinal : Approval → UInt8
  | endorsement _ => 0
  | skip _ => 1

/-- An approval stands for its content, on the side of its kind. -/
def iso : Iso Approval (Hash ⊕ UInt64) where
  forth
    | endorsement block => .inl block
    | skip height => .inr height
  back
    | .inl block => endorsement block
    | .inr height => skip height
  back_forth := by rintro (_ | _) <;> rfl
  forth_back := by rintro (_ | _) <;> rfl

/-- The ordinal of the kind and then the content. -/
def schema {o : Ownership} : Schema o Approval :=
  .iso iso (.either "ApprovalInner" Hash.schema .scalar)

instance : Wire Approval where
  schema := schema
  write approval := do
    Writer.tag "ApprovalInner" approval.ordinal.toNat 2
    match approval with
    | endorsement block => Wire.write block
    | skip height => Wire.write height
  read := Get.eitherOr "ApprovalInner" (Wire.read >>= fun block => pure (endorsement block))
    (Wire.read >>= fun height => pure (skip height))
    fun ordinal => Get.fail (.invalidVariant "ApprovalInner" ordinal 2)
  memoryless_eq := rfl
  write_eq
    | endorsement _ => rfl
    | skip _ => rfl
  read_eq := by
    simp only [Wire.read_eq]
    exact (Schema.decode_iso_either Hash.schema iso "ApprovalInner" .scalar _).symm

/-- The height that the approvals collected for a block of a height target, or
none if that height is out of range. -/
def target? (height : UInt64) : Option UInt64 :=
  if height.toNat + 2 < UInt64.size then some (height + 2) else none

/-- What is signed to endorse a block after one of a height. -/
def message (nextBlock : Hash) (height : UInt64) : Except WireError Bytes :=
  match target? height with
  | some target =>
    (Schema.pair (o := .owned) Approval.schema .scalar).toBytes (endorsement nextBlock, target)
  | none => .error (.heightOverflow height)

end Approval
end LightWire
