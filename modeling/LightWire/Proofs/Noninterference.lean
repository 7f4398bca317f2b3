/-
# What the hashes of a view do not depend on

Three parts of a view enter none of its hashes: the nanoseconds of its header,
the producers that it announces and the approvals that it carries.  The hashes
are the same whatever these are, and also when they cannot be written.

On the wire the nanoseconds stand at one place in every view, because each field
before them has one size:

| bytes | field |
| --- | --- |
| 0 to 31 | `previousBlock` |
| 32 to 63 | `nextBlockInner` |
| 64 to 207 | `header` up to its `timestamp` |
| 208 to 215 | `nanoseconds` |
| 216 on | `header` after them, `rest`, `nextProducers`, `approvals` |

So any eight bytes may be put over these eight in an input that holds a view: the
same view is read but for its nanoseconds (`ofBytes_overwrite`), and whatever is
computed from it is the same (`nanoseconds_enter_no_hash`).
-/

import LightWire.Proofs.Asking
import LightWire.Proofs.RoundTrip

namespace LightWire

namespace Bytes

/-- A byte string with other bytes put over those from a place on. -/
def overwrite (b : Bytes) (place : Nat) (new : Bytes) : Bytes :=
  b.take place ++ (new ++ b.drop (place + new.length))

/-- A field between two parts is replaced by one of its size. -/
theorem overwrite_append {a old new : Bytes} (h : new.length = old.length) (rest : Bytes) :
    overwrite (a ++ (old ++ rest)) a.length new = a ++ (new ++ rest) := by
  rw [overwrite, List.take_left, List.drop_length_add_append, h, List.drop_left]

end Bytes

/-- A header of another time in nanoseconds. -/
def Header.withNanoseconds (h : Header) (n : UInt64) : Header := { h with nanoseconds := n }

namespace BlockView

/-- A view whose header has another time in nanoseconds. -/
def withNanoseconds (v : BlockView) (n : UInt64) : BlockView :=
  { v with header := v.header.withNanoseconds n }

/-! ### Computing -/

/-- The hashes of a view are computed from four of its parts: two hashes, the
header as it is hashed and the hash of the rest. -/
theorem hashesM_eq_of_hashed_eq (D : Digest) {v w : BlockView}
    (hprevious : v.previousBlock = w.previousBlock) (hinner : v.nextBlockInner = w.nextBlockInner)
    (hheader : v.header.hashed = w.header.hashed) (hrest : v.rest = w.rest) :
    v.hashesM D = w.hashesM D := by
  have hheight : v.header.height = w.header.height := congrArg HashedHeader.height hheader
  have hhash : v.header.hash D = w.header.hash D := by
    unfold Header.hash
    rw [hheader]
  have hcurrent : v.currentHash D = w.currentHash D := by
    unfold currentHash blockHash
    rw [hhash, hrest, hprevious]
  have hnext : v.nextHash D = w.nextHash D := by
    unfold nextHash
    rw [hinner, hcurrent]
  rw [hashesM_eq, hashesM_eq, hashes, hashes, hcurrent, hnext, hheight]

/-- The hash of the producers announced is computed from them alone. -/
theorem nextProducersHash_withNanoseconds (D : Digest) (v : BlockView) (n : UInt64) :
    (v.withNanoseconds n).nextProducersHash D = v.nextProducersHash D := rfl

/-! ### Reading -/

/-- What is written of a view before the nanoseconds. -/
def bytesBefore (v : BlockView) : Bytes :=
  v.previousBlock.toBytes ++ v.nextBlockInner.toBytes ++ Scalar.toBytes v.header.height ++
    v.header.epoch.toBytes ++ v.header.nextEpoch.toBytes ++ v.header.previousState.toBytes ++
    v.header.outcomes.toBytes ++ Scalar.toBytes v.header.timestamp

/-- What writes a view after the nanoseconds. -/
def putAfter (v : BlockView) : Put :=
  .raw v.header.nextProducers.toBytes ++ (.raw v.header.blocks.toBytes ++ (.raw v.rest.toBytes ++
    ((Schema.option ProducerList.schema : Schema .owned _).encode v.nextProducers ++
      (Schema.seq (.option Signature.schema) : Schema .owned _).encode v.approvals)))

theorem length_bytesBefore (v : BlockView) : v.bytesBefore.length = 208 := by
  simp [bytesBefore, Scalar.size, Scalar.width, Width.bytes]

/-- **The nanoseconds are written between two parts that do not depend on them.** -/
theorem encode_eq (v : BlockView) : (schema : Schema .owned _).encode v =
    .raw v.bytesBefore ++ (.scalar v.header.nanoseconds ++ v.putAfter) := by
  have hheader : (Header.schema : Schema .owned _).encode v.header =
      .raw (Scalar.toBytes v.header.height) ++ (.raw v.header.epoch.toBytes ++
        (.raw v.header.nextEpoch.toBytes ++ (.raw v.header.previousState.toBytes ++
          (.raw v.header.outcomes.toBytes ++ (.raw (Scalar.toBytes v.header.timestamp) ++
            (.scalar v.header.nanoseconds ++ (.raw v.header.nextProducers.toBytes ++
              .raw v.header.blocks.toBytes))))))) := rfl
  have hview : (schema : Schema .owned _).encode v =
      .raw v.previousBlock.toBytes ++ (.raw v.nextBlockInner.toBytes ++
        ((Header.schema : Schema .owned _).encode v.header ++ (.raw v.rest.toBytes ++
          ((Schema.option ProducerList.schema : Schema .owned _).encode v.nextProducers ++
            (Schema.seq (.option Signature.schema) : Schema .owned _).encode v.approvals)))) := rfl
  simp only [hview, hheader, bytesBefore, putAfter, Put.raw_append_append, Put.append_assoc]

/-- A view that can be written can be written with any other nanoseconds, as the
same bytes but for theirs. -/
theorem written_withNanoseconds {m : Nat} {v : BlockView} {e : Bytes}
    (h : schema.Written m v e) (n : UInt64) :
    ∃ after, e = v.bytesBefore ++ (Scalar.toBytes v.header.nanoseconds ++ after) ∧
      schema.Written m (v.withNanoseconds n) (v.bytesBefore ++ (Scalar.toBytes n ++ after)) := by
  obtain ⟨hencode, hlengths⟩ := h
  rw [encode_eq] at hencode
  obtain ⟨before, e, hbefore, he, rfl⟩ := Put.append_eq_raw_iff.1 hencode
  obtain ⟨old, after, hold, hafter, rfl⟩ := Put.append_eq_raw_iff.1 he
  obtain rfl := Put.raw_inj.1 hbefore
  obtain rfl := Put.raw_inj.1 hold
  refine ⟨after, rfl, ?_, hlengths⟩
  have hnew : (v.withNanoseconds n).putAfter = .raw after := hafter
  rw [encode_eq, hnew]
  rfl

/-- **Other nanoseconds are read from an input where their bytes are put over
those of the nanoseconds,** and all else is read as before. -/
theorem ofBytes_overwrite {options : Options} {b new : Bytes} {v : BlockView}
    (h : schema.ofBytes options b = .ok v) (hnew : new.length = 8) :
    schema.ofBytes options (b.overwrite 208 new) =
      .ok (v.withNanoseconds (Scalar.ofBytes new)) := by
  obtain ⟨e, rest, hwritten, rfl, hend⟩ := Schema.ofBytes_eq_ok_iff.1 h
  obtain ⟨after, rfl, hother⟩ := written_withNanoseconds hwritten (Scalar.ofBytes new)
  have hbytes : Scalar.toBytes (Scalar.ofBytes new : UInt64) = new := Scalar.toBytes_ofBytes hnew
  have hsize : new.length = (Scalar.toBytes v.header.nanoseconds).length := by
    rw [hnew, Scalar.length_toBytes]
    rfl
  have hplace := Bytes.overwrite_append (a := v.bytesBefore) hsize (after ++ rest)
  rw [length_bytesBefore] at hplace
  rw [hbytes] at hother
  refine Schema.ofBytes_eq_ok_iff.2 ⟨_, rest, hother, ?_, hend⟩
  rw [List.append_assoc, List.append_assoc, hplace, List.append_assoc, List.append_assoc]

/-- An input that holds a view goes on after its nanoseconds. -/
theorem le_length_of_ofBytes {options : Options} {b : Bytes} {v : BlockView}
    (h : schema.ofBytes options b = .ok v) : 216 ≤ b.length := by
  obtain ⟨e, rest, hwritten, rfl, -⟩ := Schema.ofBytes_eq_ok_iff.1 h
  obtain ⟨after, rfl, -⟩ := written_withNanoseconds hwritten 0
  have hsize : (Scalar.toBytes v.header.nanoseconds).length = 8 := Scalar.length_toBytes _
  simp only [List.length_append, length_bytesBefore, hsize]
  omega

/-- **The nanoseconds, the producers and the approvals enter no hash.**  Whatever
the digest, the hashes of two views and the cause for which there are none are
the same if the views have the same previous block, inner parts of the next
block, rest, and header but for its nanoseconds.  In an input that holds a view,
under any options, the nanoseconds are eight bytes from the place 208 on: with
any eight bytes put over them, the same view is read but for the nanoseconds that
these bytes denote, its hashes are the same, and so is what is found of the
producers that it announces. -/
theorem nanoseconds_enter_no_hash (D : Digest) :
    (∀ v w : BlockView, v.previousBlock = w.previousBlock → v.nextBlockInner = w.nextBlockInner →
      v.rest = w.rest → w.header = { v.header with nanoseconds := w.header.nanoseconds } →
        v.hashesM D = w.hashesM D) ∧
    (∀ (options : Options) (b new : Bytes) (v : BlockView), schema.ofBytes options b = .ok v →
      new.length = 8 → 216 ≤ b.length ∧ ∃ w, schema.ofBytes options (b.overwrite 208 new) = .ok w ∧
        w = { v with header := { v.header with nanoseconds := Scalar.ofBytes new } } ∧
        w.hashesM D = v.hashesM D ∧ w.nextProducersHash D = v.nextProducersHash D ∧
        w.nextProducersMatch D = v.nextProducersMatch D) := by
  refine ⟨fun v w hprevious hinner hrest hheader => ?_, fun options b new v h hnew => ?_⟩
  · have hhashed : v.header.hashed = w.header.hashed := by
      rw [hheader]
      rfl
    exact hashesM_eq_of_hashed_eq D hprevious hinner hhashed hrest
  · have hproducers := v.nextProducersHash_withNanoseconds D (Scalar.ofBytes new)
    refine ⟨le_length_of_ofBytes h, v.withNanoseconds (Scalar.ofBytes new),
      ofBytes_overwrite h hnew, rfl, hashesM_eq_of_hashed_eq D rfl rfl rfl rfl, hproducers, ?_⟩
    unfold nextProducersMatch
    rw [hproducers]
    rfl

/-- The hypotheses are satisfiable: two views that differ in nanoseconds, producers
and approvals, and the bytes of the first with `9` put over its `2` nanoseconds.  Under
a digest that tells what is hashed apart two such views have the same hashes too, and
one of another time has others. -/
theorem nanoseconds_of_two_views :
    hashesM (fun _ => .zero)
        ⟨.zero, .zero, ⟨7, .zero, .zero, .zero, .zero, 1, 2, .zero, .zero⟩, .zero, none, [none]⟩ =
      hashesM (fun _ => .zero)
        ⟨.zero, .zero, ⟨7, .zero, .zero, .zero, .zero, 1, 3, .zero, .zero⟩, .zero,
          some [.v1 ⟨"a", .ed25519 (Vector.replicate 32 1), .ofNat 5⟩], []⟩ ∧
    schema.ofBytes {} (Bytes.overwrite (List.replicate 64 0 ++ ([7, 0, 0, 0, 0, 0, 0, 0] ++
        (List.replicate 128 0 ++ ([1, 0, 0, 0, 0, 0, 0, 0] ++ ([2, 0, 0, 0, 0, 0, 0, 0] ++
          (List.replicate 97 0 ++ [1, 0, 0, 0, 0])))))) 208 [9, 0, 0, 0, 0, 0, 0, 0]) =
      .ok ⟨.zero, .zero, ⟨7, .zero, .zero, .zero, .zero, 1, 9, .zero, .zero⟩, .zero, none,
        [none]⟩ ∧
    hashesM .positional plain = hashesM .positional { plain with
      header.nanoseconds := 3, approvals := [none] } ∧
    hashesM .positional plain ≠ hashesM .positional { plain with header.timestamp := 3 } := by
  obtain ⟨hcompute, hread⟩ := nanoseconds_enter_no_hash fun _ => .zero
  obtain ⟨happart, -⟩ := nanoseconds_enter_no_hash .positional
  refine ⟨hcompute _ _ rfl rfl rfl rfl, ?_, happart _ _ rfl rfl rfl rfl,
    fun hsame => absurd (congrArg Except.toOption hsame) (by decide +kernel)⟩
  have hbytes : (schema : Schema .owned _).toBytes
      ⟨.zero, .zero, ⟨7, .zero, .zero, .zero, .zero, 1, 2, .zero, .zero⟩, .zero, none, [none]⟩ =
        .ok (List.replicate 64 0 ++ ([7, 0, 0, 0, 0, 0, 0, 0] ++ (List.replicate 128 0 ++
          ([1, 0, 0, 0, 0, 0, 0, 0] ++ ([2, 0, 0, 0, 0, 0, 0, 0] ++ (List.replicate 97 0 ++
            [1, 0, 0, 0, 0])))))) := Put.toExcept_eq_ok_iff.2 (by decide +kernel)
  obtain ⟨-, w, hw, rfl, -⟩ := hread {} _ [9, 0, 0, 0, 0, 0, 0, 0] _
    (Schema.ofBytes_of_toBytes hbytes) rfl
  exact hw

end BlockView
end LightWire
