/-
# The written form

The written form of a value is laid out by the rules of its schema, and nothing
stands between the parts:

| schema | written form |
| --- | --- |
| `unit` | nothing |
| `scalar`, `float` | the word, least significant byte first |
| `bool` | `00` or `01` |
| `text` | the count of UTF-8 bytes in four bytes, the bytes |
| `raw` | the bytes |
| `enumeration` | the ordinal in one byte |
| `option` | `00`, or `01` and the value |
| `seq` | the count in four bytes, the elements in order |
| `array` | the elements in order |
| `pair` | the first, the second |
| `variants` | the ordinal in one byte, the content |
| `iso`, `ref` | the value stood for or referred to |

`layout` says this with no writer and no failure in it.  Where a value can be
written at all, its bytes are its layout, and a buffer has them after what it
held before (`toBytes_follows_layout`).
-/

import LightWire.BlockView
import LightWire.Proofs.Items
import LightWire.Proofs.TwosComplement

namespace LightWire

open Bytes (twosComplement)

namespace Schema

variable {o : Ownership} {α : Type}

/-- The bytes that stand for a value. -/
def layout : {α : Type} → Schema o α → α → Bytes
  | _, unit, _ => []
  | α, scalar, x => twosComplement (Scalar.size α) (Scalar.toWord x).toNat
  | _, bool, b => [if b then 1 else 0]
  | _, float p, x => twosComplement p.width.bytes x.word.toNat
  | _, text, s => twosComplement 4 (Put.utf8 s).length ++ Put.utf8 s
  | _, raw _, bs => bs.toList
  | _, enumeration e _, x => [e.ordinal x]
  | _, option _, none => [0]
  | _, option s, some x => 1 :: s.layout x
  | _, seq s, xs => twosComplement 4 xs.length ++ xs.flatMap s.layout
  | _, array _ s, xs => xs.toList.flatMap s.layout
  | _, pair s t, (x, y) => s.layout x ++ t.layout y
  | _, variants _ _ _ payload, ⟨i, x⟩ => UInt8.ofNat i.val :: (payload i).layout x
  | _, iso f s, x => s.layout (f.forth x)
  | _, ref _ s, x => s.layout x

/-- Elements are laid out in order, each as its items. -/
theorem layout_elements {s : Schema o α} (h : ∀ x, s.layout x = (s.items x).flatMap Item.bytes)
    (xs : List α) : xs.flatMap s.layout = (xs.flatMap s.items).flatMap Item.bytes := by
  rw [List.flatMap_assoc]
  exact congrArg xs.flatMap (funext h)

/-- **The layout of a value is the bytes of its items,** faults or not. -/
theorem layout_eq_flatMap (s : Schema o α) (x : α) :
    s.layout x = (s.items x).flatMap Item.bytes := by
  induction s with
  | unit => rfl
  | scalar =>
    rw [layout, items, List.flatMap_singleton]
    exact (Scalar.toBytes_eq_twosComplement x).symm
  | bool => rfl
  | float p =>
    rw [layout, items, List.flatMap_singleton]
    exact (Scalar.toBytes_eq_twosComplement x).symm
  | text =>
    rw [layout, items, List.flatMap_singleton, Item.bytes, Bytes.littleEndian_eq_twosComplement]
  | raw n => exact (List.append_nil _).symm
  | enumeration e h => rfl
  | option s ih =>
    cases x with
    | none => rfl
    | some x => exact congrArg (1 :: ·) (ih x)
  | seq s ih =>
    rw [layout, items, List.flatMap_cons, Item.bytes, Bytes.littleEndian_eq_twosComplement,
      layout_elements ih]
  | array n s ih => exact layout_elements ih x.toList
  | pair s t ihs iht => rw [layout, items, List.flatMap_append, ihs, iht]
  | variants name pos le payload ih => exact congrArg (UInt8.ofNat x.1.val :: ·) (ih x.1 x.2)
  | iso f s ih => exact ih _
  | ref h s ih => exact ih _

/-- **A value that is given out is given out as its layout.** -/
theorem eq_layout_of_toBytes {s : Schema o α} {x : α} {e : Bytes} (h : s.toBytes x = .ok e) :
    e = s.layout x := by
  rw [layout_eq_flatMap]
  exact (toBytes_eq_ok_iff.1 h).2

/-- Bytes read one by one are laid out as they are. -/
theorem layout_byteArray {n : Nat} (bs : Vector UInt8 n) :
    (byteArray n : Schema o _).layout bs = bs.toList := by
  have hbyte : ∀ b : UInt8, (scalar : Schema o UInt8).layout b = [b] := fun b =>
    (Scalar.toBytes_eq_twosComplement b).symm.trans (Scalar.toBytes_byte b)
  rw [byteArray, layout, funext hbyte, List.flatMap_singleton']

/-! ### Variants with content and records -/

theorem layout_approval (a : Approval) : (Approval.schema : Schema o _).layout a =
    a.ordinal :: match a with
      | .endorsement block => block.toBytes
      | .skip height => twosComplement 8 height.toNat := by
  cases a <;> rfl

theorem layout_publicKey (k : PublicKey) : (PublicKey.schema : Schema o _).layout k =
    k.ordinal :: match k with
      | .ed25519 bytes => bytes.toList
      | .secp256k1 bytes => bytes.toList := by
  cases k with
  | ed25519 bytes => exact congrArg (0 :: ·) (layout_byteArray bytes)
  | secp256k1 bytes => exact congrArg (1 :: ·) (layout_byteArray bytes)

theorem layout_signature (g : Signature) : (Signature.schema : Schema o _).layout g =
    g.ordinal :: match g with
      | .ed25519 bytes => bytes.toList
      | .secp256k1 bytes => bytes.toList := by
  cases g with
  | ed25519 bytes => exact congrArg (0 :: ·) (layout_byteArray bytes)
  | secp256k1 bytes => exact congrArg (1 :: ·) (layout_byteArray bytes)

theorem layout_pathItem (i : Merkle.PathItem) : (Merkle.PathItem.schema : Schema o _).layout i =
    i.hash.toBytes ++ [if i.direction = .left then 0 else 1] := by
  obtain ⟨h, _ | _⟩ := i <;> rfl

/-- **Every value is written as its layout.**  A value of any schema that is given
out is its layout, and a buffer into which it is put, or written step by step,
holds, after what it held, exactly that.  In the layout an integer stands in two's complement, a variant
with content is its ordinal and the content, and a record is its fields in
order. -/
theorem toBytes_follows_layout (o : Ownership) :
    (∀ {α : Type} (s : Schema o α) (x : α) (e : Bytes), s.toBytes x = .ok e →
      e = s.layout x ∧ ∀ b : Buffer, b.put (s.encode x) = (.ok (), ⟨b.bytes ++ e⟩) ∧
        s.write x b = (.ok (), ⟨b.bytes ++ e⟩)) ∧
    (∀ {α : Type} [Scalar α] [IntegerScalar α] (x : α), (scalar : Schema o α).layout x =
      twosComplement (Scalar.size α) (IntegerScalar.number x)) ∧
    (∀ a, (Approval.schema : Schema o _).layout a =
      a.ordinal :: match a with
        | .endorsement block => block.toBytes
        | .skip height => twosComplement 8 height.toNat) ∧
    (∀ k, (PublicKey.schema : Schema o _).layout k =
      k.ordinal :: match k with
        | .ed25519 bytes => bytes.toList
        | .secp256k1 bytes => bytes.toList) ∧
    (∀ g, (Signature.schema : Schema o _).layout g =
      g.ordinal :: match g with
        | .ed25519 bytes => bytes.toList
        | .secp256k1 bytes => bytes.toList) ∧
    (∀ p, (ProducerEntry.schema : Schema o _).layout p =
      0 :: (Producer.schema : Schema o _).layout p.producer) ∧
    (∀ p, (Producer.schema : Schema o _).layout p =
      (text : Schema o _).layout p.account ++ ((PublicKey.schema : Schema o _).layout p.key ++
        twosComplement 16 p.stake.toNat)) ∧
    (∀ i, (Merkle.PathItem.schema : Schema o _).layout i =
      i.hash.toBytes ++ [if i.direction = .left then 0 else 1]) ∧
    (∀ h, (HashedHeader.schema : Schema o _).layout h =
      twosComplement 8 h.height.toNat ++ (h.epoch.toBytes ++ (h.nextEpoch.toBytes ++
        (h.previousState.toBytes ++ (h.outcomes.toBytes ++ (twosComplement 8 h.timestamp.toNat ++
          (h.nextProducers.toBytes ++ h.blocks.toBytes))))))) ∧
    (∀ h, (Header.schema : Schema o _).layout h =
      twosComplement 8 h.height.toNat ++ (h.epoch.toBytes ++ (h.nextEpoch.toBytes ++
        (h.previousState.toBytes ++ (h.outcomes.toBytes ++ (twosComplement 8 h.timestamp.toNat ++
          (twosComplement 8 h.nanoseconds.toNat ++
            (h.nextProducers.toBytes ++ h.blocks.toBytes)))))))) ∧
    (∀ v, (BlockView.schema : Schema o _).layout v =
      v.previousBlock.toBytes ++ (v.nextBlockInner.toBytes ++
        ((Header.schema : Schema o _).layout v.header ++ (v.rest.toBytes ++
          ((option ProducerList.schema : Schema o _).layout v.nextProducers ++
            (seq (option Signature.schema) : Schema o _).layout v.approvals))))) := by
  refine ⟨fun s x e h => ⟨eq_layout_of_toBytes h, fun b => ?_⟩, fun x => ?_, layout_approval,
    layout_publicKey, layout_signature, fun _ => rfl, fun _ => rfl, layout_pathItem,
    fun _ => rfl, fun _ => rfl, fun _ => rfl⟩
  · rw [write_apply, Put.toExcept_eq_ok_iff.1 h]
    exact ⟨rfl, rfl⟩
  · rw [← Scalar.toBytes_eq_number, Scalar.toBytes_eq_twosComplement]
    rfl

/-- The hypothesis is satisfiable: `-2` in two bytes and a list of two options,
put into a buffer that holds a byte. -/
theorem toBytes_follows_layout_pair :
    (pair scalar (seq (option bool)) : Schema .owned (Int16 × _)).toBytes (-2, [some true, none]) =
      .ok [254, 255, 2, 0, 0, 0, 1, 1, 0] ∧
    (Buffer.mk [7]).put ((pair scalar (seq (option bool)) : Schema .owned (Int16 × _)).encode
        (-2, [some true, none])) =
      (.ok (), ⟨[7, 254, 255, 2, 0, 0, 0, 1, 1, 0]⟩) ∧
    (pair scalar (seq (option bool)) : Schema .owned (Int16 × _)).write (-2, [some true, none])
        ⟨[7]⟩ = (.ok (), ⟨[7, 254, 255, 2, 0, 0, 0, 1, 1, 0]⟩) :=
  ⟨rfl, ((toBytes_follows_layout .owned).1 (pair scalar (seq (option bool)))
    ((-2 : Int16), [some true, none]) _ rfl).2 ⟨[7]⟩⟩

end Schema
end LightWire
