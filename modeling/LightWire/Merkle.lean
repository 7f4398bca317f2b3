/-
# Merkle paths

A path proves that an item is a leaf of a tree of hashes.  It lists the hashes
met beside the way from the leaf up to the root, and on which side each one
stands.  Two neighbours have the digest of both, left before right, above them.
-/

import LightWire.Hash

namespace LightWire
namespace Merkle

/-- The side on which a neighbour stands. -/
inductive Direction where
  | left
  | right
  deriving DecidableEq, Repr

/-- A neighbour on the way to the root. -/
structure PathItem where
  /-- The neighbour. -/
  hash : Hash
  /-- The side on which it stands. -/
  direction : Direction
  deriving DecidableEq, Repr

/-- The neighbours on the way from a leaf to the root, the lowest first. -/
abbrev Path := List PathItem

namespace Direction

/-- The table of sides: left, right. -/
def enumeration : Enumeration Direction := .ofVariants "Direction" [left, right]

/-- The table of sides is lawful. -/
theorem enumeration_lawful : enumeration.Lawful :=
  Enumeration.lawful_ofVariants (by intro d; cases d <;> decide) (by decide) (by decide)
    (by decide)

/-- One byte: `0` for left, `1` for right. -/
def schema {o : Ownership} : Schema o Direction := .enumeration enumeration enumeration_lawful

instance : Wire Direction := .ofEnumeration enumeration enumeration_lawful

end Direction

/-- An item stands for its hash and its side. -/
def PathItem.iso : Iso PathItem (Hash × Direction) where
  forth := fun item => (item.hash, item.direction)
  back := fun (hash, direction) => ⟨hash, direction⟩
  back_forth := fun _ => rfl
  forth_back := fun _ => rfl

/-- The hash and then the side. -/
def PathItem.schema {o : Ownership} : Schema o PathItem :=
  .iso iso (.pair Hash.schema Direction.schema)

instance : Wire PathItem where
  schema := PathItem.schema
  write item := do
    Wire.write item.hash
    Wire.write item.direction
  read := do
    let hash ← Wire.read
    let direction ← Wire.read
    pure ⟨hash, direction⟩
  memoryless_eq := rfl
  write_eq _ := rfl
  read_eq := by
    simp only [Wire.read_eq, PathItem.schema, Schema.decode_iso, Schema.decode_pair,
      Get.bind_assoc, Get.pure_bind]
    rfl

/-- The count of items and then the items. -/
def Path.schema {o : Ownership} : Schema o Path := .seq PathItem.schema

/-- The hash above two neighbours. -/
def combine (D : Digest) (left right : Hash) : Hash := D (left.toBytes ++ right.toBytes)

/-- The hash one level up from `hash`. -/
def PathItem.climb (D : Digest) (hash : Hash) (item : PathItem) : Hash :=
  match item.direction with
  | .left => combine D item.hash hash
  | .right => combine D hash item.hash

/-- The root that a path leads to from a leaf. -/
def Path.root (D : Digest) (path : Path) (leaf : Hash) : Hash :=
  path.foldl (PathItem.climb D) leaf

/-- Whether a path leads from a leaf to a root. -/
def Path.verify (D : Digest) (path : Path) (leaf root : Hash) : Bool :=
  Path.root D path leaf == root

/-! ### From what is written

The functions above put the bytes of two hashes together by themselves.  Those
below write each pair of neighbours as any value is written, and stop where a
write would stop; no write of theirs does. -/

/-- The hash above two neighbours, from what is written of the pair of them. -/
def combineM (D : Digest) (left right : Hash) : Except WireError Hash :=
  ((Schema.pair (o := .borrowed) (.ref rfl Hash.schema) (.ref rfl Hash.schema)).toBytes
    (left, right)).map D

/-- The hash one level up from `hash`, from what is written. -/
def PathItem.climbM (D : Digest) (hash : Hash) (item : PathItem) : Except WireError Hash :=
  match item.direction with
  | .left => combineM D item.hash hash
  | .right => combineM D hash item.hash

/-- The root that a path leads to from a leaf, from what is written. -/
def Path.rootM (D : Digest) (path : Path) (leaf : Hash) : Except WireError Hash :=
  path.foldlM (PathItem.climbM D) leaf

/-- Whether a path leads from a leaf to a root, from what is written. -/
def Path.verifyM (D : Digest) (path : Path) (leaf root : Hash) : Except WireError Bool :=
  (Path.rootM D path leaf).map (· == root)

/-- Two hashes are always written, one after the other. -/
theorem combineM_eq (D : Digest) (left right : Hash) :
    combineM D left right = .ok (combine D left right) := rfl

theorem PathItem.climbM_eq (D : Digest) (hash : Hash) (item : PathItem) :
    climbM D hash item = .ok (climb D hash item) := by
  unfold climbM climb
  split
  · exact combineM_eq D item.hash hash
  · exact combineM_eq D hash item.hash

/-- **A path leads to a root from every leaf.** -/
theorem Path.rootM_eq (D : Digest) (path : Path) (leaf : Hash) :
    Path.rootM D path leaf = .ok (Path.root D path leaf) := by
  induction path generalizing leaf with
  | nil => rfl
  | cons item path ih =>
    rw [Path.rootM, List.foldlM_cons, PathItem.climbM_eq]
    exact ih _

theorem Path.verifyM_eq (D : Digest) (path : Path) (leaf root : Hash) :
    Path.verifyM D path leaf root = .ok (Path.verify D path leaf root) := by
  rw [Path.verifyM, Path.rootM_eq]
  rfl

end Merkle
end LightWire
