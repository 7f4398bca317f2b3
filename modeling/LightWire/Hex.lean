/-
# Hexadecimal text

A byte is written as two lowercase hexadecimal digits, the high one first, and
a byte string as the digits of its bytes in order, with nothing between them.
Reading refuses uppercase digits, blanks and an odd count of digits, so the texts
that are read are those that are written.
-/

import LightWire.Bytes

namespace LightWire
namespace Hex

/-- The digit of a value below 16. -/
def digit (n : Fin 16) : Char :=
  if n.val < 10 then Char.ofNat (48 + n.val) else Char.ofNat (87 + n.val)

/-- The value of a lowercase digit. -/
def value? (c : Char) : Option (Fin 16) :=
  (List.finRange 16).find? fun n => digit n == c

/-- The upper half of a byte. -/
def high (b : UInt8) : Fin 16 := ⟨b.toNat / 16, by have := b.toNat_lt; omega⟩

/-- The lower half of a byte. -/
def low (b : UInt8) : Fin 16 := ⟨b.toNat % 16, by omega⟩

/-- The byte with the given halves. -/
def join (h l : Fin 16) : UInt8 := UInt8.ofNat (16 * h.val + l.val)

/-- Two digits a byte, high half first. -/
def encode : Bytes → List Char
  | [] => []
  | b :: bs => digit (high b) :: digit (low b) :: encode bs

/-- Refuses an odd count of characters and any character that is no lowercase
digit. -/
def decode? : List Char → Option Bytes
  | [] => some []
  | [_] => none
  | h :: l :: cs =>
    match value? h, value? l, decode? cs with
    | some h, some l, some bs => some (join h l :: bs)
    | _, _, _ => none

/-- The hexadecimal text of a byte string. -/
def text (bs : Bytes) : String := String.ofList (encode bs)

/-- The byte string of a hexadecimal text. -/
def ofText? (s : String) : Option Bytes := decode? s.toList

/-- A digit stands for the value that it was written for. -/
theorem value?_digit (n : Fin 16) : value? (digit n) = some n := by
  revert n; decide

/-- A byte is the join of its halves. -/
theorem join_high_low (b : UInt8) : join (high b) (low b) = b := by
  apply UInt8.toNat_inj.1
  have := b.toNat_lt
  simp only [join, high, low, UInt8.toNat_ofNat']
  omega

@[simp] theorem length_encode (bs : Bytes) : (encode bs).length = 2 * bs.length := by
  induction bs with
  | nil => rfl
  | cons b bs ih => simp only [encode, List.length_cons, ih]; omega

/-- **A byte string is read back from its text.** -/
theorem decode?_encode (bs : Bytes) : decode? (encode bs) = some bs := by
  induction bs with
  | nil => rfl
  | cons b bs ih => simp only [encode, decode?, value?_digit, ih, join_high_low]

/-- A digit is the only character that stands for its value. -/
theorem value?_eq_some_iff {c : Char} {n : Fin 16} : value? c = some n ↔ c = digit n := by
  constructor
  · intro h
    exact (eq_of_beq (List.find?_some (p := fun n => digit n == c) h)).symm
  · rintro rfl
    exact value?_digit n

theorem high_join (h l : Fin 16) : high (join h l) = h := by
  apply Fin.ext
  simp only [high, join, UInt8.toNat_ofNat']
  omega

theorem low_join (h l : Fin 16) : low (join h l) = l := by
  apply Fin.ext
  simp only [low, join, UInt8.toNat_ofNat']
  omega

/-- **Nothing but the text of a byte string is read as it.** -/
theorem eq_encode_of_decode? {cs : List Char} {bs : Bytes} (h : decode? cs = some bs) :
    cs = encode bs := by
  fun_induction decode? cs generalizing bs with
  | case1 =>
    obtain rfl := Option.some.inj h
    rfl
  | case2 c => cases h
  | case3 x y cs m n tail htail hy hx ih =>
    obtain rfl := Option.some.inj h
    rw [encode, high_join, low_join, ← ih htail, ← value?_eq_some_iff.1 hx,
      ← value?_eq_some_iff.1 hy]
  | case4 => cases h

/-- **The texts that are read are those of byte strings,** each as its byte string. -/
theorem ofText?_eq_some_iff {s : String} {bs : Bytes} : ofText? s = some bs ↔ s = text bs := by
  constructor
  · intro h
    rw [text, ← eq_encode_of_decode? h, String.ofList_toList]
  · rintro rfl
    rw [ofText?, text, String.toList_ofList, decode?_encode]

/-- A byte string is determined by its text. -/
theorem text_inj {bs cs : Bytes} : text bs = text cs ↔ bs = cs := by
  rw [← ofText?_eq_some_iff, ofText?_eq_some_iff.2 rfl, Option.some.injEq]

end Hex
end LightWire
