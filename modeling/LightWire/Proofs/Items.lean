/-
# The items of a value

Writing a value walks it from left to right, depth first.  What the walk meets
is a list of items, and each item is either written or is a fault:

| item | written as | is a fault when | with the cause |
| --- | --- | --- | --- |
| `plain bs` | `bs` | never | |
| `number x` | its pattern | it is no number | `nanFloat` |
| `count z n` | four bytes | `n` elements take no room, `n ≠ 0` | `zeroSizedCollection` |
| | | else `n > 2 ^ 32 - 1` | `lengthOverflow n` |
| `text s` | four bytes, the bytes of `s` | they are more than `2 ^ 32 - 1` | `lengthOverflow` |

The count of a sequence stands before its elements, and the presence byte of an
option and the ordinal of a variant before what they announce.  The run of
writes of a value is the run of its items (`encode_eq_concat`), so it stops at
the first fault and nowhere else (`encode_stops_at_first_fault`).
-/

import LightWire.Proofs.Stepwise
import Mathlib.Data.List.TakeWhile

namespace LightWire

/-- What a walk over a value meets. -/
inductive Item where
  /-- Bytes that are always written. -/
  | plain (bs : Bytes)
  /-- A floating-point pattern. -/
  | number {p : Precision} (x : FloatBits p)
  /-- The count of a sequence, and whether its elements take no room. -/
  | count (zeroSized : Bool) (n : Nat)
  /-- A text. -/
  | text (s : String)

namespace Item

/-- The cause of failure that an item is, if it is one. -/
def fault? : Item → Option WireError
  | plain _ => none
  | number x => if x.isNaN then some .nanFloat else none
  | count zeroSized n =>
    if zeroSized && n != 0 then some .zeroSizedCollection
    else if n ≤ Put.maxLength then none
    else some (.lengthOverflow n)
  | text s =>
    if (Put.utf8 s).length ≤ Put.maxLength then none
    else some (.lengthOverflow (Put.utf8 s).length)

/-- The bytes of an item that is written. -/
def bytes : Item → Bytes
  | plain bs => bs
  | number x => Scalar.toBytes x
  | count _ n => Bytes.littleEndian 4 n
  | text s => Bytes.littleEndian 4 (Put.utf8 s).length ++ Put.utf8 s

/-- Writes an item; refuses a fault. -/
def put (i : Item) : Put :=
  match i.fault? with
  | none => .raw i.bytes
  | some e => .fail e

theorem put_of_fault?_eq_none {i : Item} (h : i.fault? = none) : i.put = .raw i.bytes := by
  rw [put, h]

theorem put_of_fault?_eq_some {i : Item} {e : WireError} (h : i.fault? = some e) :
    i.put = .fail e := by
  rw [put, h]

@[simp] theorem put_plain (bs : Bytes) : (plain bs).put = .raw bs := rfl

theorem put_number {p : Precision} (x : FloatBits p) : (number x).put = .float x := by
  unfold Put.float
  split
  · exact put_of_fault?_eq_some (by simp [fault?, *])
  · exact put_of_fault?_eq_none (by simp [fault?, *])

theorem put_count (zeroSized : Bool) (n : Nat) :
    (count zeroSized n).put =
      if zeroSized && n != 0 then .fail .zeroSizedCollection else .length n := by
  unfold Put.length
  split
  · exact put_of_fault?_eq_some (by simp only [fault?, ↓reduceIte, *])
  · split
    · exact put_of_fault?_eq_none (by simp [fault?, *])
    · exact put_of_fault?_eq_some (by simp [fault?, *])

theorem put_text (s : String) : (text s).put = .text s := by
  unfold Put.text Put.sized Put.length
  split
  · exact put_of_fault?_eq_none (by simp [fault?, *])
  · exact put_of_fault?_eq_some (by simp [fault?, *])

/-- The causes that items are: no value is refused for another one. -/
theorem cause_of_fault?_eq_some {i : Item} {e : WireError} (h : i.fault? = some e) :
    e = .nanFloat ∨ e = .zeroSizedCollection ∨
      ∃ n, Put.maxLength < n ∧ e = .lengthOverflow n := by
  cases i with
  | plain bs => exact absurd h (Option.some_ne_none e).symm
  | number x =>
    simp only [fault?, Option.ite_none_right_eq_some, Option.some.injEq] at h
    exact .inl h.2.symm
  | count zeroSized n =>
    simp only [fault?] at h
    split at h
    · exact .inr (.inl (Option.some.inj h).symm)
    · simp only [Option.ite_none_left_eq_some, Nat.not_le, Option.some.injEq] at h
      exact .inr (.inr ⟨n, h.1, h.2.symm⟩)
  | text s =>
    simp only [fault?, Option.ite_none_left_eq_some, Nat.not_le, Option.some.injEq] at h
    exact .inr (.inr ⟨_, h.1, h.2.symm⟩)

/-- Items of which none is a fault all stand before the first fault. -/
theorem takeWhile_eq_self {is : List Item} (h : ∀ i ∈ is, i.fault? = none) :
    (is.takeWhile fun i => i.fault?.isNone) = is :=
  List.takeWhile_eq_self_iff.2 fun i hi => by rw [h i hi]; rfl

/-- **A run of items stops at the first fault,** with the bytes of the items
before it. -/
theorem concat_put (is : List Item) :
    Put.concat (is.map put) =
      ⟨(is.takeWhile fun i => i.fault?.isNone).flatMap bytes, is.findSome? fault?⟩ := by
  induction is with
  | nil => rfl
  | cons i is ih =>
    rw [List.map_cons, Put.concat_cons, ih]
    cases h : i.fault? with
    | none => simp [put_of_fault?_eq_none h, Put.raw_append, h]
    | some e =>
      rw [put_of_fault?_eq_some h, Put.fail_append, List.takeWhile_cons_of_neg (by simp [h]),
        List.findSome?_cons_of_isSome (by simp [h]), h]
      rfl

end Item

namespace Schema

variable {o : Ownership}

/-- The items of a value, in the order in which they are met. -/
def items : {α : Type} → Schema o α → α → List Item
  | _, unit, _ => []
  | _, scalar, x => [.plain (Scalar.toBytes x)]
  | _, bool, b => [.plain [if b then 1 else 0]]
  | _, float _, x => [.number x]
  | _, text, s => [.text s]
  | _, raw _, bs => [.plain bs.toList]
  | _, enumeration e _, x => [.plain [e.ordinal x]]
  | _, option _, none => [.plain [0]]
  | _, option s, some x => .plain [1] :: s.items x
  | _, seq s, xs => .count s.zeroSized xs.length :: xs.flatMap s.items
  | _, array _ s, xs => xs.toList.flatMap s.items
  | _, pair s t, (x, y) => s.items x ++ t.items y
  | _, variants _ _ _ payload, ⟨i, x⟩ => .plain [UInt8.ofNat i.val] :: (payload i).items x
  | _, iso f s, x => s.items (f.forth x)
  | _, ref _ s, x => s.items x

/-- Elements are written in order, each as the run of its items. -/
theorem concat_elements {α : Type} {s : Schema o α}
    (h : ∀ x, s.encode x = .concat ((s.items x).map Item.put)) (xs : List α) :
    Put.concat (xs.map s.encode) = .concat ((xs.flatMap s.items).map Item.put) := by
  rw [List.map_flatMap, Put.concat_flatMap]
  exact congrArg Put.concat (List.map_congr_left fun x _ => h x)

/-- **Writing a value is writing its items.** -/
theorem encode_eq_concat {α : Type} (s : Schema o α) (x : α) :
    s.encode x = .concat ((s.items x).map Item.put) := by
  induction s with
  | unit => rfl
  | scalar => exact (Put.append_empty _).symm
  | bool => rfl
  | float p => exact ((Put.append_empty _).trans (Item.put_number x)).symm
  | text => exact ((Put.append_empty _).trans (Item.put_text x)).symm
  | raw n => exact (Put.append_empty _).symm
  | enumeration e h => exact h.put_eq x
  | option s ih =>
    cases x with
    | none => rfl
    | some x => exact congrArg (Put.raw [1] ++ ·) (ih x)
  | seq s ih =>
    simp only [encode, items, List.map_cons, Put.concat_cons, Item.put_count, concat_elements ih]
    -- The refusal stands before the count here and around the whole run there.
    cases x with
    | nil => simp
    | cons x xs => by_cases hz : s.zeroSized <;> simp [hz]
  | array n s ih => exact concat_elements ih x.toList
  | pair s t ihs iht => rw [encode, items, List.map_append, Put.concat_append, ihs, iht]
  | variants name pos le payload ih =>
    obtain ⟨i, x⟩ := x
    rw [encode, items, List.map_cons, Put.concat_cons, Item.put_plain, ih,
      Put.tag_eq_raw_iff.2 ⟨le, i.isLt, rfl⟩]
  | iso f s ih => exact ih _
  | ref h s ih => exact ih _

/-- **What a buffer holds after a value was put into it:** the bytes of the items
before the first fault. -/
theorem put_encode {α : Type} (s : Schema o α) (x : α) (b : Buffer) :
    b.put (s.encode x) =
      (match (s.items x).findSome? Item.fault? with
        | none => .ok ()
        | some e => .error e,
      b.append (((s.items x).takeWhile fun i => i.fault?.isNone).flatMap Item.bytes)) := by
  rw [encode_eq_concat, Item.concat_put, Buffer.put, Put.toExcept]
  cases (s.items x).findSome? Item.fault? <;> rfl

/-- **A value is given out exactly when no item of it is a fault,** as the bytes
of its items. -/
theorem toBytes_eq_ok_iff {α : Type} {s : Schema o α} {x : α} {e : Bytes} :
    s.toBytes x = .ok e ↔
      (∀ i ∈ s.items x, i.fault? = none) ∧ e = (s.items x).flatMap Item.bytes := by
  rw [toBytes, Put.toExcept_eq_ok_iff, encode_eq_concat, Item.concat_put, Put.raw, Put.mk.injEq,
    List.findSome?_eq_none_iff]
  constructor
  · rintro ⟨he, h⟩
    rw [Item.takeWhile_eq_self h] at he
    exact ⟨h, he.symm⟩
  · rintro ⟨h, rfl⟩
    rw [Item.takeWhile_eq_self h]
    exact ⟨rfl, h⟩

/-- A value is refused with the cause of its first fault. -/
theorem toBytes_eq_error_iff {α : Type} {s : Schema o α} {x : α} {e : WireError} :
    s.toBytes x = .error e ↔ ∃ before i after, s.items x = before ++ i :: after ∧
      i.fault? = some e ∧ ∀ j ∈ before, j.fault? = none := by
  rw [toBytes, Put.toExcept_eq_error_iff, encode_eq_concat, Item.concat_put,
    List.findSome?_eq_some_iff]

/-- **Where and how writing a value fails.**  It fails exactly when an item of the
value is a fault, with the cause of the first one; the buffer then holds, after
what it held, the bytes of the items before that one.  With no fault it holds
the bytes of all items.  No value is refused for another cause than a pattern
that is no number, elements that take no room, or a count that does not fit.  All
of this is so of the steps that write the value into the buffer, for they do what
putting its run does. -/
theorem encode_stops_at_first_fault {α : Type} (s : Schema o α) (x : α) (b : Buffer) :
    ((∃ e, (b.put (s.encode x)).1 = .error e) ↔ ∃ i ∈ s.items x, ∃ e, i.fault? = some e) ∧
    (∀ before i after e, s.items x = before ++ i :: after → i.fault? = some e →
      (∀ j ∈ before, j.fault? = none) →
        b.put (s.encode x) = (.error e, ⟨b.bytes ++ before.flatMap Item.bytes⟩)) ∧
    ((∀ i ∈ s.items x, i.fault? = none) →
      b.put (s.encode x) = (.ok (), ⟨b.bytes ++ (s.items x).flatMap Item.bytes⟩)) ∧
    (∀ e, s.toBytes x = .error e ↔ ∃ before i after, s.items x = before ++ i :: after ∧
      i.fault? = some e ∧ ∀ j ∈ before, j.fault? = none) ∧
    (∀ e, s.toBytes x = .error e → e = .nanFloat ∨ e = .zeroSizedCollection ∨
      ∃ n, Put.maxLength < n ∧ e = .lengthOverflow n) ∧
    s.write x b = b.put (s.encode x) := by
  refine ⟨?_, fun before i after e hx hi hb => ?_, fun h => ?_, fun e => toBytes_eq_error_iff,
    fun e h => ?_, s.write_apply x b⟩
  · rw [put_encode]
    constructor
    · rintro ⟨e, h⟩
      cases hf : (s.items x).findSome? Item.fault? with
      | none => simp [hf] at h
      | some f =>
        obtain ⟨i, hi, hif⟩ := List.exists_of_findSome?_eq_some hf
        exact ⟨i, hi, f, hif⟩
    · rintro ⟨i, hi, e, he⟩
      cases hf : (s.items x).findSome? Item.fault? with
      | none => exact absurd (List.findSome?_eq_none_iff.1 hf i hi) (by simp [he])
      | some f => exact ⟨f, rfl⟩
  · have hf : (s.items x).findSome? Item.fault? = some e :=
      List.findSome?_eq_some_iff.2 ⟨before, i, after, hx, hi, hb⟩
    rw [put_encode, hf, hx, List.takeWhile_append_of_pos fun j hj => by rw [hb j hj]; rfl,
      List.takeWhile_cons_of_neg (by simp [hi]), List.append_nil]
    rfl
  · rw [put_encode, List.findSome?_eq_none_iff.2 h, Item.takeWhile_eq_self h]
    rfl
  · obtain ⟨_, _, _, _, hi, _⟩ := toBytes_eq_error_iff.1 h
    exact Item.cause_of_fault?_eq_some hi

/-- The hypotheses are satisfiable: of two lists of units the second is not empty,
and the buffer keeps the truth value, the count of lists and the count of none. -/
theorem encode_stops_at_units :
    (pair bool (seq (seq unit)) : Schema .owned _).items (true, [[], [(), ()]]) =
      [.plain [1], .count false 2, .count true 0] ++ .count true 2 :: [] ∧
    (∀ j ∈ [.plain [1], .count false 2, .count true 0], Item.fault? j = none) ∧
    (Buffer.mk [7]).put ((pair bool (seq (seq unit)) : Schema .owned _).encode
        (true, [[], [(), ()]])) =
      (.error .zeroSizedCollection, ⟨[7, 1, 2, 0, 0, 0, 0, 0, 0, 0]⟩) :=
  ⟨rfl, by decide, (encode_stops_at_first_fault (o := .owned) (pair bool (seq (seq unit)))
    (true, [[], [(), ()]]) ⟨[7]⟩).2.1 [.plain [1], .count false 2, .count true 0] _ _ _ rfl rfl
      (by decide)⟩

end Schema
end LightWire
