/-
# What a digest is asked

A hash is computed from values by asking a digest for byte strings.  Which strings
these are cannot be seen in the hash that comes out, so each computation is given here
for a digest with effects too:

| computation | asked for | in all |
| --- | --- | ---: |
| `Merkle.Path.rootIn` | `Merkle.Path.preimages` | one string for each item |
| `BlockView.hashesIn` | `BlockView.preimages` | four strings |

With no effects each is the run of the library (`Path.run_rootIn_id`, `run_hashesIn_id`).
With a digest that notes what it is asked, the notes are the list in the table, in
order (`Path.run_rootIn_noting`, `run_hashesIn_noting`).  So a collision between two of
the lists is one between two strings that the digest has been asked for.
-/

import LightWire.BlockView

namespace LightWire

variable {m : Type → Type} [Monad m]

/-! ### Digests with effects -/

/-- A digest with effects is asked for what is written, and for nothing where that is
refused. -/
def askFor (ask : Bytes → m Hash) (written : Except WireError Bytes) :
    ExceptT WireError m Hash := do
  let bytes ← ExceptT.mk (pure written)
  ExceptT.lift (ask bytes)

theorem askFor_ok [LawfulMonad m] (ask : Bytes → m Hash) (bytes : Bytes) :
    askFor ask (.ok bytes) = ExceptT.lift (ask bytes) :=
  pure_bind (m := ExceptT WireError m) bytes fun bytes => ExceptT.lift (ask bytes)

/-- A digest that notes each byte string that it is asked for, after those before. -/
def noting (D : Digest) (bytes : Bytes) : StateM (List Bytes) Hash := fun notes =>
  (D bytes, notes ++ [bytes])

/-- What is asked for first is noted first. -/
theorem run_noting_bind {α : Type} (D : Digest) (bytes : Bytes)
    (f : Hash → ExceptT WireError (StateM (List Bytes)) α) (notes : List Bytes) :
    (ExceptT.lift (noting D bytes) >>= f).run.run notes =
      (f (D bytes)).run.run (notes ++ [bytes]) := rfl

/-- A step that asks for nothing leaves the notes as they are. -/
theorem run_written_bind {α : Type} (written : Except WireError Bytes) (f : Bytes → α)
    (notes : List Bytes) :
    (do let bytes ← ExceptT.mk (pure written)
        pure (f bytes) : ExceptT WireError (StateM (List Bytes)) α).run.run notes =
      (written.map f, notes) := by
  cases written with
  | error e => rfl
  | ok bytes => rfl

/-! ### Paths -/

namespace Merkle

/-- What is hashed one level up from `hash`. -/
def PathItem.preimage (hash : Hash) (item : PathItem) : Bytes :=
  match item.direction with
  | .left => item.hash.toBytes ++ hash.toBytes
  | .right => hash.toBytes ++ item.hash.toBytes

/-- What is hashed along a path from a leaf, one byte string for each level. -/
def Path.preimages (D : Digest) : Path → Hash → List Bytes
  | [], _ => []
  | item :: path, hash =>
    PathItem.preimage hash item :: preimages D path (PathItem.climb D hash item)

/-- The hash above two neighbours: a digest with effects is asked for what is written
of the pair of them. -/
def combineIn (ask : Bytes → m Hash) (left right : Hash) : ExceptT WireError m Hash :=
  askFor ask ((Schema.pair (o := .borrowed) (.ref rfl Hash.schema)
    (.ref rfl Hash.schema)).toBytes (left, right))

/-- The hash one level up from `hash`, by a digest with effects. -/
def PathItem.climbIn (ask : Bytes → m Hash) (hash : Hash) (item : PathItem) :
    ExceptT WireError m Hash :=
  match item.direction with
  | .left => combineIn ask item.hash hash
  | .right => combineIn ask hash item.hash

/-- The root that a path leads to from a leaf, by a digest with effects. -/
def Path.rootIn (ask : Bytes → m Hash) (path : Path) (leaf : Hash) : ExceptT WireError m Hash :=
  path.foldlM (PathItem.climbIn ask) leaf

/-- Two neighbours are asked for as the bytes of both, and nothing is refused. -/
theorem combineIn_eq [LawfulMonad m] (ask : Bytes → m Hash) (left right : Hash) :
    combineIn ask left right = ExceptT.lift (ask (left.toBytes ++ right.toBytes)) :=
  askFor_ok ask (left.toBytes ++ right.toBytes)

theorem PathItem.climbIn_eq [LawfulMonad m] (ask : Bytes → m Hash) (hash : Hash)
    (item : PathItem) : climbIn ask hash item = ExceptT.lift (ask (preimage hash item)) := by
  obtain ⟨neighbour, d⟩ := item
  cases d with
  | left => exact combineIn_eq ask neighbour hash
  | right => exact combineIn_eq ask hash neighbour

namespace PathItem

theorem climb_eq (D : Digest) (hash : Hash) (item : PathItem) :
    climb D hash item = D (preimage hash item) := by
  obtain ⟨neighbour, d⟩ := item
  cases d with
  | left => rfl
  | right => rfl

theorem length_preimage (hash : Hash) (item : PathItem) : (preimage hash item).length = 64 := by
  unfold preimage
  split <;> simp

end PathItem

namespace Path

theorem length_preimages (D : Digest) (path : Path) (leaf : Hash) :
    (preimages D path leaf).length = path.length := by
  induction path generalizing leaf with
  | nil => rfl
  | cons item path ih => exact congrArg (· + 1) (ih _)

/-- **A path asks only for strings of 64 bytes.** -/
theorem length_of_mem_preimages {D : Digest} {path : Path} {leaf : Hash} {x : Bytes}
    (h : x ∈ preimages D path leaf) : x.length = 64 := by
  induction path generalizing leaf with
  | nil => exact absurd h List.not_mem_nil
  | cons item path ih =>
    rcases List.mem_cons.1 h with rfl | h
    · exact PathItem.length_preimage leaf item
    · exact ih h

/-- **Without effects it is the run of the library.** -/
theorem run_rootIn_id (D : Digest) (path : Path) (leaf : Hash) :
    (Path.rootIn (m := Id) D path leaf).run = Path.rootM D path leaf := by
  induction path generalizing leaf with
  | nil => rfl
  | cons item path ih =>
    have hfirst : PathItem.climbIn (m := Id) D leaf item =
        ExceptT.lift (D (PathItem.preimage leaf item)) := PathItem.climbIn_eq (m := Id) D leaf item
    rw [Path.rootIn, Path.rootM, List.foldlM_cons, List.foldlM_cons, hfirst,
      PathItem.climbM_eq, PathItem.climb_eq]
    exact ih _

/-- **What a path asks a digest for,** in order: what is hashed at each level, and
nothing else. -/
theorem run_rootIn_noting (D : Digest) (path : Path) (leaf : Hash) (notes : List Bytes) :
    (Path.rootIn (noting D) path leaf).run.run notes =
      (.ok (Path.root D path leaf), notes ++ Path.preimages D path leaf) := by
  induction path generalizing leaf notes with
  | nil => exact congrArg (Prod.mk _) (List.append_nil notes).symm
  | cons item path ih =>
    rw [Path.rootIn, List.foldlM_cons, PathItem.climbIn_eq, run_noting_bind, Path.root,
      List.foldl_cons, Path.preimages, PathItem.climb_eq]
    exact (ih _ _).trans (congrArg (Prod.mk _) (List.append_cons ..).symm)

end Path
end Merkle

/-! ### Views -/

/-- The hash of a header, by a digest with effects. -/
def Header.hashIn (ask : Bytes → m Hash) (h : Header) : ExceptT WireError m Hash :=
  askFor ask ((HashedHeader.schema (o := .owned)).toBytes h.hashed)

/-- The 208 bytes of the hashed header are asked for, and nothing is refused. -/
theorem Header.hashIn_eq [LawfulMonad m] (ask : Bytes → m Hash) (h : Header) :
    h.hashIn ask = ExceptT.lift (ask h.hashed.toBytes) :=
  askFor_ok ask h.hashed.toBytes

/-- The hash of a block, by a digest with effects. -/
def blockHashIn (ask : Bytes → m Hash) (header : Header) (rest previous : Hash) :
    ExceptT WireError m Hash := do
  let lite ← header.hashIn ask
  let inner ← Merkle.combineIn ask lite rest
  Merkle.combineIn ask inner previous

/-- The hash of the block after another, by a digest with effects. -/
def nextBlockHashIn (ask : Bytes → m Hash) (nextInner block : Hash) : ExceptT WireError m Hash :=
  Merkle.combineIn ask nextInner block

/-- Both hashes and the message that the approvals sign, by a digest with effects. -/
def BlockView.hashesIn (ask : Bytes → m Hash) (v : BlockView) :
    ExceptT WireError m BlockHashes := do
  let current ← blockHashIn ask v.header v.rest v.previousBlock
  let next ← nextBlockHashIn ask v.nextBlockInner current
  let message ← ExceptT.mk (pure (Approval.message next v.header.height))
  pure ⟨current, next, message⟩

namespace BlockView

/-- What is hashed for the hashes of a view, in order. -/
def preimages (D : Digest) (v : BlockView) : List Bytes :=
  [v.header.hashed.toBytes,
    (v.header.hash D).toBytes ++ v.rest.toBytes,
    (Merkle.combine D (v.header.hash D) v.rest).toBytes ++ v.previousBlock.toBytes,
    v.nextBlockInner.toBytes ++ (v.currentHash D).toBytes]

/-- **Without effects it is the run of the library.** -/
theorem run_hashesIn_id (D : Digest) (v : BlockView) :
    (v.hashesIn (m := Id) D).run = v.hashesM D := by
  have hrun : (v.hashesIn (m := Id) D).run =
      (ExceptT.mk (m := Id) (Approval.message (v.nextHash D) v.header.height) >>= fun message =>
        pure ⟨v.currentHash D, v.nextHash D, message⟩).run := rfl
  rw [hrun, hashesM_eq, hashes]
  cases Approval.message (v.nextHash D) v.header.height with
  | error e => rfl
  | ok message => rfl

/-- **What the hashes of a view ask a digest for,** in order: the four strings that are
hashed, and nothing else, also where the message is refused. -/
theorem run_hashesIn_noting (D : Digest) (v : BlockView) (notes : List Bytes) :
    (v.hashesIn (noting D)).run.run notes = (v.hashesM D, notes ++ v.preimages D) := by
  simp only [hashesIn, blockHashIn, nextBlockHashIn, Header.hashIn_eq, Merkle.combineIn_eq,
    bind_assoc, run_noting_bind, run_written_bind, hashesM_eq, List.append_assoc,
    List.cons_append, List.nil_append]
  rfl

/-! ### A digest and a view to evaluate -/

/-- A view at height 7 that holds no hash but zero, announces no producers and carries
no approvals. -/
def plain : BlockView :=
  ⟨.zero, .zero, ⟨7, .zero, .zero, .zero, .zero, 1, 2, .zero, .zero⟩, .zero, none, []⟩

end BlockView

/-- The digest that takes a byte string for a number, each byte one place in base 257
and none of them zero, and keeps its lowest 32 bytes.  It is simple to evaluate and
tells short strings apart. -/
def Digest.positional : Digest := fun bytes =>
  let number := bytes.foldr (fun byte n => byte.toNat + 1 + 257 * n) 0
  ⟨⟨(Bytes.littleEndian 32 number).toArray, by simp⟩⟩

end LightWire
