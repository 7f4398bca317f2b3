/-
# Block hashes from what is written

A client that is sent a view computes two hashes and a message from it, each from
what is written of values that it holds.  Every step could stop where a write
stops, and only one does:

| step | written | refused |
| --- | --- | --- |
| the header | the 208 bytes of the hashed header | never |
| the block | two hashes, then two hashes | never |
| the block after | two hashes | never |
| the message | the block after, endorsed, and a height two above | a height out of range |

So what is computed is known in full (`block_hashes_are_reconstructed`): the operands
of each digest and their order, and the 41 bytes of the message.  The hash of the
block after is also the root of the path from the hash of the header that climbs past
the rest and the block before, both on the right, and the inner parts of the block
after on the left.
-/

import LightWire.Proofs.Asking
import LightWire.Proofs.RoundTrip
import Mathlib.Algebra.Group.Nat.Defs

namespace LightWire

/-! ### The hashes -/

/-- **The hash of a block** is a digest of the digest of two hashes and a third. -/
theorem blockHashM_eq_digest (D : Digest) (header : Header) (rest previous : Hash) :
    blockHashM D header rest previous =
      .ok (D ((D ((header.hash D).toBytes ++ rest.toBytes)).toBytes ++ previous.toBytes)) :=
  blockHashM_eq D header rest previous

/-- **The hash of the block after is the root of a path** of three items, which leads
past the rest, the block before and the inner parts of the block after. -/
theorem rootM_eq_nextBlockHash (D : Digest) (header : Header) (rest previous nextInner : Hash) :
    Merkle.Path.rootM D [⟨rest, .right⟩, ⟨previous, .right⟩, ⟨nextInner, .left⟩] (header.hash D) =
      .ok (nextBlockHash D nextInner (blockHash D header rest previous)) :=
  Merkle.Path.rootM_eq D _ _

namespace Approval

variable {height : UInt64}

/-! ### The message -/

/-- The height targeted is two above, without a carry out of 64 bits. -/
theorem toNat_add_two (h : height.toNat ≤ 2 ^ 64 - 3) :
    (height + 2).toNat = height.toNat + 2 := by
  have hfits : height.toNat + 2 < 2 ^ 64 := by omega
  rw [UInt64.toNat_add]
  exact Nat.mod_eq_of_lt hfits

theorem target?_of_le (h : height.toNat ≤ 2 ^ 64 - 3) : target? height = some (height + 2) := by
  have hfits : height.toNat + 2 < UInt64.size := by
    show height.toNat + 2 < 2 ^ 64
    omega
  rw [target?, if_pos hfits]

theorem target?_of_lt (h : 2 ^ 64 - 3 < height.toNat) : target? height = none := by
  have hover : ¬height.toNat + 2 < UInt64.size := by
    show ¬height.toNat + 2 < 2 ^ 64
    omega
  rw [target?, if_neg hover]

/-- The endorsement of a block and a height are one byte, the hash and the height. -/
theorem toBytes_endorsement (block : Hash) (target : UInt64) :
    (Schema.pair (o := .owned) schema .scalar).toBytes (endorsement block, target) =
      .ok (0 :: (block.toBytes ++ Bytes.littleEndian 8 target.toNat)) := rfl

/-- **A message is an endorsement and the height two above,** if that is in range. -/
theorem message_of_le (h : height.toNat ≤ 2 ^ 64 - 3) (block : Hash) :
    message block height =
      .ok (0 :: (block.toBytes ++ Bytes.littleEndian 8 (height.toNat + 2))) := by
  rw [message, target?_of_le h, ← toNat_add_two h]
  exact toBytes_endorsement block (height + 2)

/-- **A height whose target is out of range is refused.** -/
theorem message_of_lt (h : 2 ^ 64 - 3 < height.toNat) (block : Hash) :
    message block height = .error (.heightOverflow height) := by
  rw [message, target?_of_lt h]

/-- **A message is read back** as an endorsement and the height two above, whatever
the options: it holds no counts and nothing follows it. -/
theorem ofBytes_message {block : Hash} {e : Bytes} (h : height.toNat ≤ 2 ^ 64 - 3)
    (he : message block height = .ok e) (options : Options) :
    (Schema.pair schema .scalar).ofBytes options e = .ok (endorsement block, height + 2) := by
  rw [message, target?_of_le h] at he
  have hwritten : (Schema.pair schema .scalar).Written options.maxLen
      (endorsement block, height + 2) e :=
    ⟨Put.toExcept_eq_ok_iff.1 he, List.forall_mem_nil _⟩
  exact Schema.ofBytes_eq_ok_iff.2 ⟨e, [], hwritten, (List.append_nil e).symm, .inl rfl⟩

end Approval

namespace BlockView

/-- **Block hashes are reconstructed.**  A header has the digest of its 208 hashed
bytes for its hash, and from it, whatever the digest, the hashes of the block and of
the block after are computed from pairs of hashes, first to last as they stand here;
none of them is ever refused.  The last one is the root of the path that leads from
the hash of the header past the rest and the block before, on its right, and the
inner parts of the block after, on its left.  From a view both hashes and a message
are computed, unless the height two above has no place in 64 bits: the message is a
byte `0`, the hash of the block after and that height, 41 bytes in all, and is read
as an endorsement of the one and the other. -/
theorem block_hashes_are_reconstructed (D : Digest) :
    (∀ h : Header, (HashedHeader.schema (o := .owned)).toBytes h.hashed = .ok h.hashed.toBytes ∧
      h.hashM D = .ok (D h.hashed.toBytes)) ∧
    (∀ (h : Header) (rest previous : Hash), ∃ lite, h.hashM D = .ok lite ∧
      blockHashM D h rest previous =
        .ok (D ((D (lite.toBytes ++ rest.toBytes)).toBytes ++ previous.toBytes))) ∧
    (∀ nextInner block : Hash,
      nextBlockHashM D nextInner block = .ok (D (nextInner.toBytes ++ block.toBytes))) ∧
    (∀ (h : Header) (rest previous nextInner : Hash), ∃ lite block next,
      h.hashM D = .ok lite ∧ blockHashM D h rest previous = .ok block ∧
      nextBlockHashM D nextInner block = .ok next ∧
      Merkle.Path.rootM D [⟨rest, .right⟩, ⟨previous, .right⟩, ⟨nextInner, .left⟩] lite =
        .ok next) ∧
    (∀ v : BlockView,
      (∀ e, v.hashesM D = .error e ↔
        2 ^ 64 - 3 < v.header.height.toNat ∧ e = .heightOverflow v.header.height) ∧
      (v.header.height.toNat ≤ 2 ^ 64 - 3 →
        ∃ (current next : Hash) (message : Bytes) (target : UInt64),
        v.hashesM D = .ok ⟨current, next, message⟩ ∧
        v.currentHashM D = .ok current ∧
        blockHashM D v.header v.rest v.previousBlock = .ok current ∧
        nextBlockHashM D v.nextBlockInner current = .ok next ∧
        message.length = 41 ∧
        message = 0 :: (next.toBytes ++ Bytes.littleEndian 8 (v.header.height.toNat + 2)) ∧
        target.toNat = v.header.height.toNat + 2 ∧
        ∀ options, (Schema.pair Approval.schema .scalar).ofBytes options message =
          .ok (.endorsement next, target))) := by
  refine ⟨fun h => ⟨h.hashed.schema_toBytes, h.hashM_eq D⟩,
    fun h rest previous => ⟨_, h.hashM_eq D, blockHashM_eq_digest D h rest previous⟩,
    nextBlockHashM_eq D, fun h rest previous nextInner => ⟨_, _, _, h.hashM_eq D,
      blockHashM_eq D h rest previous, nextBlockHashM_eq D _ _,
      rootM_eq_nextBlockHash D h rest previous nextInner⟩, fun v => ?_⟩
  have hhashes : v.hashesM D = (Approval.message (v.nextHash D) v.header.height).map
      fun message => ⟨v.currentHash D, v.nextHash D, message⟩ := v.hashesM_eq D
  refine ⟨fun e => ?_, fun hle => ?_⟩
  · rcases Nat.lt_or_ge (2 ^ 64 - 3) v.header.height.toNat with hlt | hle
    · rw [hhashes, Approval.message_of_lt hlt, and_iff_right hlt]
      exact ⟨fun h => (Except.error.inj h).symm, fun h => congrArg _ h.symm⟩
    · rw [hhashes, Approval.message_of_le hle]
      exact ⟨nofun, fun h => absurd h.1 (Nat.not_lt.2 hle)⟩
  · have hmessage := Approval.message_of_le hle (v.nextHash D)
    refine ⟨v.currentHash D, v.nextHash D, _, v.header.height + 2, ?_, v.currentHashM_eq D,
      blockHashM_eq D _ _ _, nextBlockHashM_eq D _ _, ?_, rfl, Approval.toNat_add_two hle,
      Approval.ofBytes_message hle hmessage⟩
    · rw [hhashes, hmessage]
      rfl
    · rw [List.length_cons, List.length_append, Hash.length_toBytes, Bytes.length_littleEndian]

/-- The hypotheses are satisfiable: under the digest that gives every byte string the
same hash, the greatest height with a target has the greatest target, eight bytes
`255`, and the height after it is refused.  Under one that tells byte strings apart the
message holds the hash of the block after, which is not that of the block. -/
theorem block_hashes_of_greatest_heights :
    (∃ current next message, hashesM (fun _ => .zero) ⟨.zero, .zero,
        ⟨18446744073709551613, .zero, .zero, .zero, .zero, 1, 2, .zero, .zero⟩, .zero, none, []⟩ =
          .ok ⟨current, next, message⟩ ∧
      message = 0 :: (next.toBytes ++ List.replicate 8 255)) ∧
    hashesM (fun _ => .zero) ⟨.zero, .zero,
        ⟨18446744073709551614, .zero, .zero, .zero, .zero, 1, 2, .zero, .zero⟩, .zero, none, []⟩ =
      .error (.heightOverflow 18446744073709551614) ∧
    ∃ current next message, hashesM .positional { plain with
        header.height := 18446744073709551613 } = .ok ⟨current, next, message⟩ ∧
      message = 0 :: (next.toBytes ++ List.replicate 8 255) ∧ current ≠ next := by
  obtain ⟨-, -, -, -, hviews⟩ := block_hashes_are_reconstructed fun _ => .zero
  obtain ⟨-, htarget⟩ := hviews ⟨.zero, .zero,
    ⟨18446744073709551613, .zero, .zero, .zero, .zero, 1, 2, .zero, .zero⟩, .zero, none, []⟩
  obtain ⟨hrefused, -⟩ := hviews ⟨.zero, .zero,
    ⟨18446744073709551614, .zero, .zero, .zero, .zero, 1, 2, .zero, .zero⟩, .zero, none, []⟩
  obtain ⟨current, next, message, -, hread, -, -, -, -, hmessage, -⟩ := htarget (by decide)
  refine ⟨⟨current, next, message, hread, hmessage⟩, (hrefused _).2 ⟨by decide, rfl⟩, ?_⟩
  obtain ⟨-, -, -, -, happart⟩ := block_hashes_are_reconstructed .positional
  obtain ⟨current, next, message, -, hread, -, -, -, -, hmessage, -⟩ :=
    (happart { plain with header.height := 18446744073709551613 }).2 (by decide)
  refine ⟨current, next, message, hread, hmessage, ?_⟩
  have hdiffer : ((hashesM .positional { plain with
      header.height := 18446744073709551613 }).toOption.all fun hashes =>
        hashes.current ≠ hashes.next) = true := by decide +kernel
  rw [hread] at hdiffer
  exact of_decide_eq_true hdiffer

end BlockView
end LightWire
