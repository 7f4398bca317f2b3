/-
# What an approval message binds

The message that approvals sign holds the hash of the next block, and that hash
is the end of a chain of four digests.  Each link hashes what the link before it
gave, next to one more field of the view:

| link | hashed | gives |
| ---: | --- | --- |
| 1 | the hashed header | the hash of the header |
| 2 | that hash, `rest` | the hash of the inner parts |
| 3 | that hash, `previousBlock` | the hash of the block |
| 4 | `nextBlockInner`, that hash | the hash of the next block |

Two views with one message have one last hash.  Going back along the links, at
each link either the two strings hashed are equal, and so are their parts, or
they are two strings with one digest (`Digest.eq_or_collision`).
-/

import LightWire.Proofs.Asking
import LightWire.Proofs.RoundTrip

namespace LightWire

/-- A digest gives one hash to two different byte strings, one of each list. -/
def Digest.Collision (D : Digest) (xs ys : List Bytes) : Prop :=
  ∃ x ∈ xs, ∃ y ∈ ys, x ≠ y ∧ D x = D y

instance (D : Digest) (xs ys : List Bytes) : Decidable (D.Collision xs ys) :=
  inferInstanceAs (Decidable (∃ x ∈ xs, ∃ y ∈ ys, x ≠ y ∧ D x = D y))

/-- Byte strings with one digest are equal or a collision. -/
theorem Digest.eq_or_collision {D : Digest} {xs ys : List Bytes} {x y : Bytes} (hx : x ∈ xs)
    (hy : y ∈ ys) (h : D x = D y) : x = y ∨ D.Collision xs ys := by
  by_cases hxy : x = y
  · exact .inl hxy
  · exact .inr ⟨x, hx, y, hy, hxy, h⟩

/-- A hash is determined by its bytes. -/
theorem Hash.toBytes_inj {a b : Hash} : a.toBytes = b.toBytes ↔ a = b := by
  obtain ⟨a⟩ := a
  obtain ⟨b⟩ := b
  rw [toBytes, toBytes, Vector.toList_inj, mk.injEq]

/-- Two hashes in a row are determined by their bytes. -/
theorem Hash.append_toBytes_inj {a b a' b' : Hash}
    (h : a.toBytes ++ b.toBytes = a'.toBytes ++ b'.toBytes) : a = a' ∧ b = b' := by
  have hlen : a.toBytes.length = a'.toBytes.length := by simp
  obtain ⟨ha, hb⟩ := List.append_inj h hlen
  exact ⟨toBytes_inj.1 ha, toBytes_inj.1 hb⟩

/-- **A hashed header is determined by its 208 bytes.** -/
theorem HashedHeader.toBytes_inj {h h' : HashedHeader} (heq : h.toBytes = h'.toBytes) : h = h' :=
  Schema.eq_of_toBytes (s := schema) (schema_toBytes h) (heq ▸ schema_toBytes h')

/-- A header is determined by its hashed form but for the nanoseconds. -/
theorem Header.eq_of_hashed_eq {h h' : Header} (heq : h.hashed = h'.hashed) :
    h' = { h with nanoseconds := h'.nanoseconds } := by
  obtain ⟨height, epoch, nextEpoch, previousState, outcomes, timestamp, nanoseconds,
    nextProducers, blocks⟩ := h
  simp only [hashed, HashedHeader.mk.injEq] at heq
  obtain ⟨rfl, rfl, rfl, rfl, rfl, rfl, rfl, rfl⟩ := heq
  rfl

namespace Approval

/-- No two heights have one target. -/
theorem target?_inj {k k' t : UInt64} (h : target? k = some t) (h' : target? k' = some t) :
    k = k' := by
  unfold target? at h h'
  simp only [Option.ite_none_right_eq_some, Option.some.injEq] at h h'
  obtain ⟨-, rfl⟩ := h
  exact (UInt64.add_left_inj 2).1 h'.2.symm

/-- **A message is determined by the hash of the next block and the height,** and
they by it. -/
theorem message_inj {next next' : Hash} {k k' : UInt64} {e : Bytes}
    (h : message next k = .ok e) (h' : message next' k' = .ok e) : next = next' ∧ k = k' := by
  unfold message at h h'
  split at h
  · rename_i t ht
    split at h'
    · rename_i t' ht'
      have heq := Schema.eq_of_toBytes h h'
      obtain ⟨hnext, rfl⟩ := Prod.mk.inj heq
      exact ⟨endorsement.inj hnext, target?_inj ht ht'⟩
    · exact nomatch h'
  · exact nomatch h

end Approval

namespace BlockView

/-- What is computed from a view is the message over its last hash. -/
theorem message_of_hashesM {D : Digest} {v : BlockView} {h : BlockHashes}
    (hv : v.hashesM D = .ok h) :
    Approval.message (v.nextHash D) v.header.height = .ok h.approvalMessage ∧
      h.next = v.nextHash D := by
  rw [hashesM_eq, hashes] at hv
  cases hm : Approval.message (v.nextHash D) v.header.height with
  | error e =>
    rw [hm] at hv
    cases hv
  | ok message =>
    rw [hm] at hv
    obtain rfl := Except.ok.inj hv
    exact ⟨rfl, rfl⟩

/-- **One hash of the next block, one chain of hashes,** or a collision in it. -/
theorem eq_or_collision_of_nextHash_eq {D : Digest} {a b : BlockView}
    (h : a.nextHash D = b.nextHash D) :
    (a.nextBlockInner = b.nextBlockInner ∧ a.previousBlock = b.previousBlock ∧
      a.rest = b.rest ∧ a.header.hashed = b.header.hashed) ∨
        D.Collision (a.preimages D) (b.preimages D) := by
  refine Classical.or_iff_not_imp_right.2 fun hnone => ?_
  have hinj : ∀ {x y}, x ∈ a.preimages D → y ∈ b.preimages D → D x = D y → x = y :=
    fun hx hy hxy => (Digest.eq_or_collision hx hy hxy).resolve_right hnone
  -- Each link gives back its field and the hash that the link before it gave.
  obtain ⟨hnextInner, hblock⟩ := Hash.append_toBytes_inj
    (hinj (by simp [preimages]) (by simp [preimages]) h)
  obtain ⟨hinner, hprevious⟩ := Hash.append_toBytes_inj
    (hinj (by simp [preimages]) (by simp [preimages]) hblock)
  obtain ⟨hheader, hrest⟩ := Hash.append_toBytes_inj
    (hinj (by simp [preimages]) (by simp [preimages]) hinner)
  have hhashed := HashedHeader.toBytes_inj
    (hinj (by simp [preimages]) (by simp [preimages]) hheader)
  exact ⟨hnextInner, hprevious, hrest, hhashed⟩

/-- **An approval message binds the block.**  Two views from which one message is
computed have one height and one hash of the next block, whatever the digest.
They also have the same hash of the inner parts of the next block, previous
block, rest and header but for its nanoseconds, unless the digest gives one hash
to two different byte strings, one that is hashed for the first view and one that
is hashed for the second.  What is hashed for a view is what a digest is asked for
in the run that computes its hashes, in order and nothing else. -/
theorem approval_message_binds_block (D : Digest) (a b : BlockView) {ha hb : BlockHashes}
    (hashes_a : a.hashesM D = .ok ha) (hashes_b : b.hashesM D = .ok hb)
    (hmessage : ha.approvalMessage = hb.approvalMessage) :
    a.header.height = b.header.height ∧ ha.next = hb.next ∧
      ((a.nextBlockInner = b.nextBlockInner ∧ a.previousBlock = b.previousBlock ∧
        a.rest = b.rest ∧ b.header = { a.header with nanoseconds := b.header.nanoseconds }) ∨
      ∃ x ∈ a.preimages D, ∃ y ∈ b.preimages D, x ≠ y ∧ D x = D y) ∧
      ∀ v : BlockView, (v.hashesIn (m := Id) D).run = v.hashesM D ∧
        (v.hashesIn (noting D)).run.run [] = (v.hashesM D, v.preimages D) := by
  obtain ⟨hma, hna⟩ := message_of_hashesM hashes_a
  obtain ⟨hmb, hnb⟩ := message_of_hashesM hashes_b
  obtain ⟨hnext, hheight⟩ := Approval.message_inj hma (hmessage ▸ hmb)
  refine ⟨hheight, by rw [hna, hnb, hnext], ?_,
    fun v => ⟨v.run_hashesIn_id D, v.run_hashesIn_noting D []⟩⟩
  rcases eq_or_collision_of_nextHash_eq hnext with ⟨hinner, hprevious, hrest, hhashed⟩ | hcollision
  · exact .inl ⟨hinner, hprevious, hrest, Header.eq_of_hashed_eq hhashed⟩
  · exact .inr hcollision

/-- The hypotheses are satisfiable: a digest that gives every byte string the same
hash, and two views of one height that differ in the block before, which are then
a collision.  Under a digest that tells what is hashed apart, two such views have
different messages, and two with one message are one but for nanoseconds and
approvals. -/
theorem approval_message_of_two_blocks :
    (∃ x ∈ preimages (fun _ => .zero) ⟨.zero, .zero,
        ⟨7, .zero, .zero, .zero, .zero, 1, 2, .zero, .zero⟩, .zero, none, []⟩,
      ∃ y ∈ preimages (fun _ => .zero) ⟨⟨Vector.replicate 32 1⟩, .zero,
        ⟨7, .zero, .zero, .zero, .zero, 1, 3, .zero, .zero⟩, .zero, none, [none]⟩,
        x ≠ y) ∧
    (∃ ha hb, plain.hashesM .positional = .ok ha ∧
      hashesM .positional { plain with previousBlock := ⟨Vector.replicate 32 1⟩ } = .ok hb ∧
      ha.approvalMessage ≠ hb.approvalMessage) ∧
    ∃ b h, b ≠ plain ∧ plain.hashesM .positional = .ok h ∧ b.hashesM .positional = .ok h ∧
      b.header = { plain.header with nanoseconds := b.header.nanoseconds } := by
  refine ⟨?_, ⟨_, _, rfl, rfl, fun hmessage => ?_⟩,
    { plain with header.nanoseconds := 3, approvals := [none] }, _, by decide, rfl, rfl, ?_⟩
  · obtain ⟨-, -, hsame | ⟨x, hx, y, hy, hxy, -⟩, -⟩ := approval_message_binds_block
      (fun _ => .zero)
      ⟨.zero, .zero, ⟨7, .zero, .zero, .zero, .zero, 1, 2, .zero, .zero⟩, .zero, none, []⟩
      ⟨⟨Vector.replicate 32 1⟩, .zero, ⟨7, .zero, .zero, .zero, .zero, 1, 3, .zero, .zero⟩,
        .zero, none, [none]⟩ rfl rfl rfl
    · exact absurd hsame.2.1 (by decide)
    · exact ⟨x, hx, y, hy, hxy⟩
  · obtain ⟨-, -, hsame | hcollision, -⟩ := approval_message_binds_block .positional plain
      { plain with previousBlock := ⟨Vector.replicate 32 1⟩ } rfl rfl hmessage
    · exact absurd hsame.2.1 (by decide)
    · exact absurd hcollision (by decide +kernel)
  · obtain ⟨-, -, hsame | hcollision, -⟩ := approval_message_binds_block .positional plain
      { plain with header.nanoseconds := 3, approvals := [none] } rfl rfl rfl
    · exact hsame.2.2.2
    · exact absurd hcollision (by decide +kernel)

end BlockView
end LightWire
