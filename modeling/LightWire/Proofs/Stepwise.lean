/-
# Writing as a whole and step by step

A run of writes says what is appended before anything is appended.  Written step by
step, a value goes into a buffer that is changed on the way, and the bytes before a
refusal stay in it.  Both are the same: a run put into a buffer is the steps of its
parts (`Writer.ofPut_append`), and so is each single write:

| step | run |
| --- | --- |
| `Writer.scalar x`, `bool`, `optionTag`, `fixed` | `Put.scalar x`, `bool`, `optionTag`, `raw` |
| `Writer.float x`, `length n`, `sized bs`, `text s`, `tag` | those of `Put` |
| two steps in a row | the two runs in a row |
| the steps of each element | `Put.concat` |

By these rules the steps of a value are its run, whatever its schema (`Schema.write_eq`),
and a type that has a writer and a reader of its own writes and reads as its schema does.
-/

import LightWire.Proofs.Run
import LightWire.Wire

namespace LightWire

namespace Writer

variable {α : Type}

/-- Puts a run of writes into the buffer. -/
def ofPut (p : Put) : Writer Unit := fun b => b.put p

theorem ofPut_apply (p : Put) (b : Buffer) : ofPut p b = b.put p := rfl

theorem ofPut_fail (e : WireError) : ofPut (.fail e) = fail e :=
  funext (Buffer.put_fail e)

theorem ofPut_empty : ofPut .empty = pure () :=
  funext fun b => congrArg (Prod.mk _) b.append_nil

/-- **Two runs in a row are the steps of the one and then of the other.** -/
theorem ofPut_append (p q : Put) : ofPut (p ++ q) = ofPut p >>= fun _ => ofPut q := by
  funext b
  rw [bind_apply, ofPut_apply, ofPut_apply, Buffer.put_append]
  rcases b.put p with ⟨_ | _, b'⟩
  · rfl
  · rfl

/-- **The steps of each element are the run of them all.** -/
theorem forM_eq {w : α → Writer Unit} {f : α → Put} (h : ∀ x, w x = ofPut (f x)) (xs : List α) :
    xs.forM w = ofPut (.concat (xs.map f)) := by
  induction xs with
  | nil => exact ofPut_empty.symm
  | cons x xs ih =>
    have hcons : (x :: xs).forM w = w x >>= fun _ => xs.forM w := rfl
    rw [hcons, h, ih, List.map_cons, Put.concat_cons, ofPut_append]

/-! ### Single writes -/

theorem scalar_eq [Scalar α] (x : α) : scalar x = ofPut (.scalar x) := rfl

theorem bool_eq (b : Bool) : bool b = ofPut (.bool b) := by
  rw [bool, scalar_eq, Put.scalar, Scalar.toBytes_byte, Put.bool]

theorem optionTag_eq (present : Bool) : optionTag present = ofPut (.optionTag present) :=
  bool_eq present

theorem float_eq {p : Precision} (x : FloatBits p) : float x = ofPut (.float x) := by
  rw [float, Put.float, apply_ite ofPut, ofPut_fail, scalar_eq]

/-- A count that fits is the word of four bytes. -/
theorem toBytes_count {n : Nat} (h : n ≤ Put.maxLength) :
    Scalar.toBytes (UInt32.ofNat n) = Bytes.littleEndian 4 n :=
  congrArg (Bytes.littleEndian 4) (UInt32.toNat_ofNat_of_lt (Nat.lt_succ_of_le h))

theorem length_eq (n : Nat) : length n = ofPut (.length n) := by
  unfold length Put.length
  by_cases h : n ≤ Put.maxLength
  · rw [if_neg (Nat.not_lt.2 h), if_pos h, scalar_eq, Put.scalar, toBytes_count h]
  · rw [if_pos (Nat.lt_of_not_le h), if_neg h, ofPut_fail]

theorem sized_eq (bs : Bytes) : sized bs = ofPut (.sized bs) := by
  rw [sized, length_eq, Put.sized, ofPut_append]
  rfl

theorem text_eq (s : String) : text s = ofPut (.text s) := sized_eq (Put.utf8 s)

theorem tag_eq (name : String) (ordinal count : Nat) :
    tag name ordinal count = ofPut (.tag name ordinal count) := by
  unfold tag checkedTag Put.tag
  by_cases hmany : Put.maxVariants < count
  · rw [if_pos hmany, if_pos hmany, ofPut_fail]
    rfl
  · rw [if_neg hmany, if_neg hmany]
    by_cases hlt : ordinal < count
    · rw [if_neg (Nat.not_le.2 hlt), if_pos hlt, ← Scalar.toBytes_byte]
      rfl
    · rw [if_pos (Nat.not_lt.1 hlt), if_neg hlt, ofPut_fail]
      rfl

/-- Taken out alone, the steps of a run give what the run gives. -/
theorem encode_ofPut (p : Put) (b : Buffer) : (ofPut p).encode b = b.encode p := rfl

end Writer

namespace Schema

variable {o : Ownership} {α : Type}

/-- **The steps of a value are its run,** whatever its schema. -/
theorem write_eq (s : Schema o α) (x : α) : s.write x = .ofPut (s.encode x) := by
  induction s with
  | unit => exact Writer.ofPut_empty.symm
  | scalar => rfl
  | bool => exact Writer.bool_eq x
  | float p => exact Writer.float_eq x
  | text => exact Writer.text_eq x
  | raw n => rfl
  | enumeration e h => exact Writer.tag_eq e.name (e.ordinal x).toNat e.count
  | option s ih =>
    cases x with
    | none => exact Writer.optionTag_eq false
    | some x => rw [write, encode, Writer.ofPut_append, Writer.optionTag_eq, ih]
  | seq s ih =>
    rw [write, encode, Writer.length_eq, Writer.forM_eq ih, ← Writer.ofPut_append,
      apply_ite Writer.ofPut, Writer.ofPut_fail]
  | array n s ih => exact Writer.forM_eq ih x.toList
  | pair s t ihs iht => rw [write, encode, Writer.ofPut_append, ihs, iht]
  | variants name pos le payload ih =>
    rw [write, encode, Writer.ofPut_append, Writer.tag_eq, ih]
  | iso f s ih => exact ih (f.forth x)
  | ref h s ih => exact ih x

/-- **Whatever a buffer holds, the steps of a value leave it as its run does,** and are
refused as it is. -/
theorem write_apply (s : Schema o α) (x : α) (b : Buffer) : s.write x b = b.put (s.encode x) :=
  congrFun (s.write_eq x) b

end Schema

namespace Wire

variable {α : Type} [Wire α]

/-- A type writes its values as its schema does. -/
theorem write_apply (x : α) (b : Buffer) : write x b = b.put (schema.encode x) := by
  rw [write_eq, Schema.write_apply]

theorem toBytes_eq (x : α) : toBytes x = schema.toBytes x := by
  rw [toBytes, write_eq, Schema.write_eq, Writer.encode_ofPut, Buffer.encode_eq]
  rfl

/-- A type reads whole inputs as its schema does. -/
theorem ofBytes_eq (options : Options) (data : Bytes) :
    ofBytes options data = (schema : Schema .owned α).ofBytes options data := by
  rw [ofBytes, read_eq]
  rfl

end Wire
end LightWire
