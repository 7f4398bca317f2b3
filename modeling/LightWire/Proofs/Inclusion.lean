/-
# Inclusion in a tree of hashes

A leaf of a tree has a place in it, and a place has a path: the subtrees beside
the way up, each by its root and the side on which it stands.

| place | path |
| --- | --- |
| the leaf that is the whole tree | empty |
| `i` in the left subtree | that of `i`, and then the root of the right subtree, right |
| `i` in the right subtree | that of `i`, and then the root of the left subtree, left |

The path of a place leads from its leaf to the root of the tree
(`path_of_place_leads_to_root`).  No other leaf takes its place: two paths with
the same sides that lead from two leaves to one root are one path from one leaf,
unless the digest gives one hash to two different byte strings that are hashed
at one level of the two paths (`path_binds_leaf`).  A path is followed from the
leaf up, but the argument goes down from the root, a level at a time.
-/

import LightWire.Proofs.Asking
import LightWire.Proofs.Binding

namespace LightWire
namespace Merkle

/-- A tree with hashes for leaves. -/
inductive Tree where
  | leaf (hash : Hash)
  | node (left right : Tree)
  deriving DecidableEq, Repr

/-- A leaf is its own root; the root of two subtrees is the digest of their roots,
left before right. -/
def Tree.root (D : Digest) : Tree → Hash
  | leaf hash => hash
  | node left right => D ((left.root D).toBytes ++ (right.root D).toBytes)

/-- The place of a leaf in a tree. -/
inductive Tree.Place : Tree → Type where
  | here {hash : Hash} : Place (leaf hash)
  | inLeft {left right : Tree} (i : Place left) : Place (node left right)
  | inRight {left right : Tree} (i : Place right) : Place (node left right)

namespace Tree.Place

/-- The leaf at a place. -/
def hash : {t : Tree} → t.Place → Hash
  | leaf hash, here => hash
  | _, inLeft i => i.hash
  | _, inRight i => i.hash

/-- The subtrees beside the way from a place to the root, the lowest first. -/
def path (D : Digest) : {t : Tree} → t.Place → Path
  | _, here => []
  | node _ right, inLeft i => i.path D ++ [⟨right.root D, .right⟩]
  | node left _, inRight i => i.path D ++ [⟨left.root D, .left⟩]

end Tree.Place

namespace Path

/-- A path that goes on leads on from where it led. -/
theorem root_append (D : Digest) (p q : Path) (leaf : Hash) :
    Path.root D (p ++ q) leaf = Path.root D q (Path.root D p leaf) :=
  List.foldl_append

theorem rootM_eq_ok_iff {D : Digest} {path : Path} {leaf root : Hash} :
    Path.rootM D path leaf = .ok root ↔ Path.root D path leaf = root := by
  rw [Path.rootM_eq, Except.ok.injEq]

/-- **A path is found to lead to the hash that it leads to,** and to no other. -/
theorem verifyM_eq_ok_true_iff {D : Digest} {path : Path} {leaf root : Hash} :
    Path.verifyM D path leaf root = .ok true ↔ Path.root D path leaf = root := by
  rw [Path.verifyM_eq, Path.verify, Except.ok.injEq, beq_iff_eq]

theorem verifyM_eq_ok_false_iff {D : Digest} {path : Path} {leaf root : Hash} :
    Path.verifyM D path leaf root = .ok false ↔ Path.root D path leaf ≠ root := by
  rw [Path.verifyM_eq, Path.verify, Except.ok.injEq, beq_eq_false_iff_ne]

end Path

/-- **The path of a place leads from its leaf to the root of the tree.** -/
theorem Tree.Place.root_path (D : Digest) {t : Tree} (i : t.Place) :
    Path.root D (i.path D) i.hash = t.root D := by
  induction i with
  | here => rfl
  | @inLeft left right i ih =>
    rw [path, hash, Path.root_append, ih]
    rfl
  | @inRight left right i ih =>
    rw [path, hash, Path.root_append, ih]
    rfl

/-- **Every leaf of a tree can be shown to be one.**  Whatever the digest and the
shape of the tree, from the leaf at any place the path of the place leads to the
root of the tree, and is found to lead there and nowhere else. -/
theorem path_of_place_leads_to_root (D : Digest) (t : Tree) (i : t.Place) :
    Path.rootM D (i.path D) i.hash = .ok (t.root D) ∧
      Path.verifyM D (i.path D) i.hash (t.root D) = .ok true ∧
      ∀ root, Path.verifyM D (i.path D) i.hash root = .ok true ↔ root = t.root D := by
  have hroot := i.root_path D
  refine ⟨Path.rootM_eq_ok_iff.2 hroot, Path.verifyM_eq_ok_true_iff.2 hroot, fun root => ?_⟩
  rw [Path.verifyM_eq_ok_true_iff, hroot, eq_comm]

/-- The middle one of three leaves has its right neighbour beside it and the leaf
on the left one level above. -/
example (D : Digest) (a b c : Hash) :
    (Tree.Place.inRight (.inLeft .here) :
      (Tree.node (.leaf a) (.node (.leaf b) (.leaf c))).Place).path D =
        [⟨c, .right⟩, ⟨a, .left⟩] := rfl

/-! ### Binding -/

namespace PathItem

/-- What is hashed is split in one way once the side is known. -/
theorem preimage_inj {a b : Hash} {item item' : PathItem}
    (hdir : item.direction = item'.direction) (h : preimage a item = preimage b item') :
    a = b ∧ item = item' := by
  obtain ⟨s, d⟩ := item
  obtain ⟨s', d'⟩ := item'
  obtain rfl : d = d' := hdir
  cases d with
  | left =>
    obtain ⟨rfl, rfl⟩ := Hash.append_toBytes_inj h
    exact ⟨rfl, rfl⟩
  | right =>
    obtain ⟨rfl, rfl⟩ := Hash.append_toBytes_inj h
    exact ⟨rfl, rfl⟩

end PathItem

namespace Path

/-- At some level, two paths hash two different strings of 64 bytes to one hash. -/
def Collision (D : Digest) (p p' : Path) (leaf leaf' : Hash) : Prop :=
  ∃ level : Nat, ∃ x y, (preimages D p leaf)[level]? = some x ∧
    (preimages D p' leaf')[level]? = some y ∧ x.length = 64 ∧ y.length = 64 ∧ x ≠ y ∧ D x = D y

/-- A collision above the lowest level is one of the whole paths. -/
theorem Collision.cons {D : Digest} {p p' : Path} {item item' : PathItem} {a b : Hash}
    (h : Collision D p p' (PathItem.climb D a item) (PathItem.climb D b item')) :
    Collision D (item :: p) (item' :: p') a b := by
  obtain ⟨level, x, y, hx, hy, h⟩ := h
  exact ⟨level + 1, x, y, hx, hy, h⟩

/-- What collides at one level is hashed along the two paths. -/
theorem Collision.digest {D : Digest} {p p' : Path} {a b : Hash} (h : Collision D p p' a b) :
    D.Collision (preimages D p a) (preimages D p' b) := by
  obtain ⟨level, x, y, hx, hy, -, -, hxy⟩ := h
  exact ⟨x, List.mem_of_getElem? hx, y, List.mem_of_getElem? hy, hxy⟩

/-- **One root and the same sides, one path from one leaf,** or a collision at some
level. -/
theorem eq_or_collision {D : Digest} {p p' : Path} {a b : Hash}
    (hdir : p.map PathItem.direction = p'.map PathItem.direction)
    (hroot : Path.root D p a = Path.root D p' b) :
    (a = b ∧ p = p') ∨ Collision D p p' a b := by
  induction p generalizing p' a b with
  | nil =>
    obtain rfl := List.map_eq_nil_iff.1 hdir.symm
    exact .inl ⟨hroot, rfl⟩
  | cons item p ih =>
    obtain ⟨item', p', rfl, hitem, hp⟩ := List.map_eq_cons_iff.1 hdir.symm
    -- The levels above the lowest one give back the hashes that it gave.
    rcases ih hp.symm hroot with ⟨hclimb, rfl⟩ | hcollision
    · rw [PathItem.climb_eq, PathItem.climb_eq] at hclimb
      by_cases hpre : PathItem.preimage a item = PathItem.preimage b item'
      · obtain ⟨rfl, rfl⟩ := PathItem.preimage_inj hitem.symm hpre
        exact .inl ⟨rfl, rfl⟩
      · exact .inr ⟨0, _, _, rfl, rfl, PathItem.length_preimage a item,
          PathItem.length_preimage b item', hpre, hclimb⟩
    · exact .inr hcollision.cons

end Path

/-- **A path binds its leaf.**  Whatever the digest, two paths with the same sides
that lead from two leaves to one root are one path, and the leaves are one, or at
some level two different strings of 64 bytes, each hashed along one of the paths,
have one hash.  So under one root and at one place, no two leaves are found to be
there without such a collision. -/
theorem path_binds_leaf (D : Digest) (p p' : Path) (a b : Hash)
    (hdir : p.map PathItem.direction = p'.map PathItem.direction) :
    (Path.rootM D p a = Path.rootM D p' b → (a = b ∧ p = p') ∨ Path.Collision D p p' a b) ∧
    (∀ root, Path.verifyM D p a root = .ok true → Path.verifyM D p' b root = .ok true →
      a ≠ b → Path.Collision D p p' a b) := by
  refine ⟨fun hroot => ?_, fun root ha hb hab => ?_⟩
  · rw [Path.rootM_eq, Path.rootM_eq] at hroot
    exact Path.eq_or_collision hdir (Except.ok.inj hroot)
  · have ha := Path.verifyM_eq_ok_true_iff.1 ha
    have hb := Path.verifyM_eq_ok_true_iff.1 hb
    exact (Path.eq_or_collision hdir (ha.trans hb.symm)).resolve_left fun heq => hab heq.1

/-- The hypotheses are satisfiable: a digest that gives every byte string the same
hash, under which two leaves are found at one place, and one leaf beside two
different neighbours.  Under a digest that tells what is hashed apart, the second
leaf is not found where the first one is, and the two neighbours lead to two roots. -/
theorem path_binds_two_leaves :
    Path.Collision (fun _ => .zero) [⟨.zero, .right⟩, ⟨.zero, .left⟩]
      [⟨.zero, .right⟩, ⟨.zero, .left⟩] .zero ⟨Vector.replicate 32 1⟩ ∧
    Path.Collision (fun _ => .zero) [⟨.zero, .right⟩] [⟨⟨Vector.replicate 32 1⟩, .right⟩]
      .zero .zero ∧
    (∃ root, Path.verifyM .positional [⟨.zero, .right⟩, ⟨.zero, .left⟩] .zero root = .ok true ∧
      Path.verifyM .positional [⟨.zero, .right⟩, ⟨.zero, .left⟩] ⟨Vector.replicate 32 1⟩ root ≠
        .ok true) ∧
    Path.rootM .positional [⟨.zero, .right⟩] .zero ≠
      Path.rootM .positional [⟨⟨Vector.replicate 32 1⟩, .right⟩] .zero := by
  obtain ⟨root, hfirst⟩ : ∃ root,
      Path.verifyM .positional [⟨.zero, .right⟩, ⟨.zero, .left⟩] .zero root = .ok true :=
    ⟨_, Path.verifyM_eq_ok_true_iff.2 rfl⟩
  refine ⟨(path_binds_leaf (fun _ => .zero) _ _ _ _ rfl).2 .zero rfl rfl (by decide), ?_,
    ⟨root, hfirst, fun hsecond => ?_⟩, fun hroot => ?_⟩
  · refine ((path_binds_leaf (fun _ => .zero) [⟨.zero, .right⟩]
      [⟨⟨Vector.replicate 32 1⟩, .right⟩] .zero .zero rfl).1 rfl).resolve_left fun heq => ?_
    exact absurd heq.2 (by decide)
  · have hcollision := (path_binds_leaf .positional _ _ _ _ rfl).2 root hfirst hsecond (by decide)
    exact absurd hcollision.digest (by decide +kernel)
  · rcases (path_binds_leaf .positional [⟨.zero, .right⟩]
      [⟨⟨Vector.replicate 32 1⟩, .right⟩] .zero .zero rfl).1 hroot with heq | hcollision
    · exact absurd heq.2 (by decide)
    · exact absurd hcollision.digest (by decide +kernel)

end Merkle
end LightWire
