/-
# Hashes by their texts and by their numbers

The text of a hash has two digits for each byte, also for one below 16, and the digits
`0` to `9` and `a` to `f` ascend as characters and as the bytes that write them.  So
nothing of a hash is lost in its text, and hashes come in one order whichever way they
are seen:

| a hash as | is compared by | `09…` and `0a…` |
| --- | --- | --- |
| its bytes | the first byte that differs | `9 < 10` |
| its text | the first character that differs | `'9' < 'a'` |
| the bytes of its text | the first byte that differs | `57 < 97` |
| a number, first byte highest | the number | `9 · 256 ^ 31 + … < 10 · 256 ^ 31 + …` |

The order is carried over because the higher place decides, and the lower one only where
the higher ones agree (`compare_mul_add`): the places of a byte are its two halves, and
the places of a number are its bytes.  From halves to digits each element of a list is
replaced by another, and the elements keep their order (`compare_map`).
-/

import LightWire.Proofs.Binding
import Mathlib.Algebra.Group.Nat.Defs

namespace LightWire

/-! ### Comparisons -/

/-- Two comparisons by less and equal answer alike where less and equal mean the same. -/
theorem compareOfLessAndEq_congr {α β : Type} [LT α] [DecidableLT α] [DecidableEq α] [LT β]
    [DecidableLT β] [DecidableEq β] {x y : α} {x' y' : β} (hlt : x < y ↔ x' < y')
    (heq : x = y ↔ x' = y') : compareOfLessAndEq x y = compareOfLessAndEq x' y' := by
  simp only [compareOfLessAndEq, hlt, heq]

/-- **The higher place decides,** and the lower one where the higher ones agree. -/
theorem compare_mul_add {w r s : Nat} (hr : r < w) (hs : s < w) (m n : Nat) :
    compare (m * w + r) (n * w + s) = (compare m n).then (compare r s) := by
  rcases hmn : compare m n with _ | _ | _
  · have hplace : (m + 1) * w ≤ n * w := Nat.mul_le_mul_right w (Nat.compare_eq_lt.1 hmn)
    rw [Nat.succ_mul] at hplace
    exact Nat.compare_eq_lt.2 (by omega)
  · obtain rfl := Nat.compare_eq_eq.1 hmn
    exact compareOfLessAndEq_congr Nat.add_lt_add_iff_left Nat.add_left_cancel_iff
  · have hplace : (n + 1) * w ≤ m * w := Nat.mul_le_mul_right w (Nat.compare_eq_gt.1 hmn)
    rw [Nat.succ_mul] at hplace
    exact Nat.compare_eq_gt.2 (by omega)

/-- Bytes are compared as numbers. -/
theorem compare_byte (b c : UInt8) : compare b c = compare b.toNat c.toNat :=
  compareOfLessAndEq_congr UInt8.lt_iff_toNat_lt UInt8.toNat_inj.symm

/-- **Lists keep their order** when each element is replaced and the elements keep theirs. -/
theorem compare_map {α β : Type} [Ord α] [Ord β] {f : α → β}
    (h : ∀ x y, compare (f x) (f y) = compare x y) (xs ys : List α) :
    compare (xs.map f) (ys.map f) = compare xs ys := by
  induction xs generalizing ys with
  | nil => cases ys <;> rfl
  | cons x xs ih =>
    cases ys with
    | nil => rfl
    | cons y ys =>
      rw [List.map_cons, List.map_cons, List.compare_cons_cons, List.compare_cons_cons, h, ih]

/-- Lists of characters are compared by less and equal, or by the first that differs. -/
theorem compareOfLessAndEq_chars (cs ds : List Char) :
    compareOfLessAndEq cs ds = compare cs ds := by
  induction cs generalizing ds with
  | nil => cases ds <;> rfl
  | cons c cs ih =>
    cases ds with
    | nil => rfl
    | cons d ds =>
      rw [List.compare_cons_cons, ← ih]
      rcases hcd : compare c d with _ | _ | _
      · have hlt : c < d := compareOfLessAndEq_eq_lt.1 hcd
        exact if_pos (List.cons_lt_cons_iff.2 (.inl hlt))
      · obtain rfl := Std.LawfulEqOrd.eq_of_compare hcd
        exact compareOfLessAndEq_congr List.cons_lt_cons_self (List.cons_inj_right c)
      · have hlt : ¬ c < d := fun h =>
          Ordering.noConfusion (hcd.symm.trans (compareOfLessAndEq_eq_lt.2 h))
        have hne : c ≠ d := fun h =>
          Ordering.noConfusion (hcd.symm.trans (Std.compare_eq_iff_eq.2 h))
        have hcons : ¬ c :: cs < d :: ds := by
          rw [List.cons_lt_cons_iff]
          rintro (h | ⟨h, -⟩)
          · exact hlt h
          · exact hne h
        exact (if_neg hcons).trans (if_neg fun h => hne (List.cons.inj h).1)

/-- **Texts are compared as the lists of their characters.** -/
theorem compare_ofList (cs ds : List Char) :
    compare (String.ofList cs) (String.ofList ds) = compare cs ds := by
  rw [← compareOfLessAndEq_chars]
  refine compareOfLessAndEq_congr ?_ String.ofList_inj
  rw [String.lt_iff, String.toList_ofList, String.toList_ofList]

namespace Bytes

/-! ### Numbers with the first byte highest -/

/-- The number that a byte string denotes, most significant byte first. -/
def ofBigEndian (bs : Bytes) : Nat := ofLittleEndian bs.reverse

/-- The first byte has the highest place. -/
theorem ofBigEndian_cons (b : UInt8) (bs : Bytes) :
    ofBigEndian (b :: bs) = b.toNat * count bs.length + ofBigEndian bs := by
  rw [ofBigEndian, List.reverse_cons, ofLittleEndian_append, List.length_reverse, Nat.add_comm,
    Nat.mul_comm, ofBigEndian]
  rfl

/-- A byte string denotes a number that its length holds. -/
theorem ofBigEndian_lt (bs : Bytes) : ofBigEndian bs < count bs.length := by
  have hlt := ofLittleEndian_lt bs.reverse
  rwa [List.length_reverse] at hlt

/-- **Byte strings of one length are compared as the numbers that they denote.** -/
theorem compare_ofBigEndian {bs cs : Bytes} (h : bs.length = cs.length) :
    compare (ofBigEndian bs) (ofBigEndian cs) = compare bs cs := by
  induction bs generalizing cs with
  | nil =>
    obtain rfl := List.eq_nil_of_length_eq_zero h.symm
    rfl
  | cons b bs ih =>
    cases cs with
    | nil => exact absurd h (Nat.succ_ne_zero _)
    | cons c cs =>
      have hlen : bs.length = cs.length := Nat.succ_inj.1 h
      have hc : ofBigEndian cs < count bs.length := hlen ▸ ofBigEndian_lt cs
      rw [ofBigEndian_cons, ofBigEndian_cons, ← hlen, compare_mul_add (ofBigEndian_lt bs) hc,
        ih hlen, ← compare_byte, List.compare_cons_cons]

end Bytes

namespace Hex

/-! ### Digits -/

/-- The halves of the bytes of a byte string, the upper one of each first. -/
def halves : Bytes → List (Fin 16)
  | [] => []
  | b :: bs => high b :: low b :: halves bs

/-- A byte has its halves for places. -/
theorem toNat_eq_halves (b : UInt8) : b.toNat = (high b).val * 16 + (low b).val :=
  (Nat.div_add_mod' b.toNat 16).symm

/-- The upper halves of two bytes decide, and the lower ones where the upper ones agree. -/
theorem compare_byte_eq_halves (b c : UInt8) :
    compare b c = (compare (high b) (high c)).then (compare (low b) (low c)) := by
  rw [compare_byte, toNat_eq_halves b, toNat_eq_halves c]
  exact compare_mul_add (low b).isLt (low c).isLt _ _

/-- **Byte strings are compared as their halves.** -/
theorem compare_halves (bs cs : Bytes) : compare (halves bs) (halves cs) = compare bs cs := by
  induction bs generalizing cs with
  | nil => cases cs <;> rfl
  | cons b bs ih =>
    cases cs with
    | nil => rfl
    | cons c cs =>
      rw [halves, halves, List.compare_cons_cons, List.compare_cons_cons, ih,
        ← Ordering.then_assoc, ← compare_byte_eq_halves, List.compare_cons_cons]

/-- A text is a digit for each half. -/
theorem encode_eq_map (bs : Bytes) : encode bs = (halves bs).map digit := by
  induction bs with
  | nil => rfl
  | cons b bs ih => rw [encode, ih, halves, List.map_cons, List.map_cons]

/-- The digits are in ascending order as characters. -/
theorem compare_digit : ∀ m n : Fin 16, compare (digit m) (digit n) = compare m n := by
  decide

/-- The sixteen digits in ascending order. -/
def digits : List Char := "0123456789abcdef".toList

/-- **A text has no other characters than the sixteen digits.** -/
theorem mem_digits_of_mem_text {bs : Bytes} {c : Char} (h : c ∈ (text bs).toList) :
    c ∈ digits := by
  have hdigit : ∀ n : Fin 16, digit n ∈ digits := by decide
  rw [text, String.toList_ofList, encode_eq_map] at h
  obtain ⟨n, -, rfl⟩ := List.mem_map.1 h
  exact hdigit n

/-- The number that characters denote to the base 16 after a number `n`, where a digit
stands for its place among the sixteen. -/
def numberFrom (n : Nat) (cs : List Char) : Nat :=
  cs.foldl (fun n c => 16 * n + digits.idxOf c) n

/-- The number that a text denotes to the base 16. -/
def number (s : String) : Nat := numberFrom 0 s.toList

/-- The digits of a byte string go on below the places of what was read before. -/
theorem numberFrom_encode (n : Nat) (bs : Bytes) :
    numberFrom n (encode bs) = n * Bytes.count bs.length + Bytes.ofBigEndian bs := by
  induction bs generalizing n with
  | nil => exact (Nat.mul_one n).symm
  | cons b bs ih =>
    have hdigit : ∀ m : Fin 16, digits.idxOf (digit m) = m.val := by decide
    have hbyte : 16 * (16 * n + (high b).val) + (low b).val = n * 256 + b.toNat := by
      rw [toNat_eq_halves]
      omega
    have hrest : numberFrom n (encode (b :: bs)) = numberFrom (n * 256 + b.toNat) (encode bs) := by
      rw [numberFrom, encode, List.foldl_cons, List.foldl_cons, hdigit, hdigit, hbyte, numberFrom]
    rw [hrest, ih, Bytes.ofBigEndian_cons, List.length_cons, Bytes.count, Nat.add_mul,
      Nat.mul_assoc, Nat.add_assoc]

/-- **The text of a byte string denotes the number of the byte string.** -/
theorem number_text (bs : Bytes) : number (text bs) = Bytes.ofBigEndian bs := by
  rw [number, text, String.toList_ofList, numberFrom_encode, Nat.zero_mul, Nat.zero_add]

/-- **Texts of byte strings are compared as the byte strings.** -/
theorem compare_text (bs cs : Bytes) : compare (text bs) (text cs) = compare bs cs := by
  rw [text, text, compare_ofList, encode_eq_map, encode_eq_map, compare_map compare_digit,
    compare_halves]

/-- A digit as the one byte that writes it. -/
def digitByte (n : Fin 16) : UInt8 := UInt8.ofNat (digit n).toNat

/-- The digits are in ascending order as bytes. -/
theorem compare_digitByte : ∀ m n : Fin 16, compare (digitByte m) (digitByte n) = compare m n := by
  decide

/-- A text is written as a byte for each half. -/
theorem utf8_text (bs : Bytes) : Put.utf8 (text bs) = (halves bs).map digitByte := by
  have hdigit : ∀ n : Fin 16, String.utf8EncodeChar (digit n) = [digitByte n] := by decide
  rw [Put.utf8, text, String.toByteArray_ofList, List.utf8Encode, List.toList_data_toByteArray,
    encode_eq_map, List.flatMap_map, List.map_eq_flatMap, funext hdigit]

/-- **Texts of byte strings are compared as the byte strings** also by the bytes that
write them. -/
theorem compare_utf8_text (bs cs : Bytes) :
    compare (Put.utf8 (text bs)) (Put.utf8 (text cs)) = compare bs cs := by
  rw [utf8_text, utf8_text, compare_map compare_digitByte, compare_halves]

end Hex

namespace Hash

/-- The number that a hash denotes, its first byte the highest. -/
def number (h : Hash) : Nat := Bytes.ofBigEndian h.toBytes

theorem number_lt (h : Hash) : h.number < 2 ^ 256 := by
  have hlt := Bytes.ofBigEndian_lt h.toBytes
  rw [length_toBytes] at hlt
  exact hlt

theorem length_text (h : Hash) : h.text.length = 64 := by
  rw [text, Hex.text, String.length_ofList, Hex.length_encode, length_toBytes]

/-- **Nothing of a hash is lost in its text, nor is the order of hashes.**  The text has 64
characters, each of them one of the sixteen digits.  Read as hexadecimal it gives the 32
bytes of the hash, and no other text gives them; to the base 16 it denotes the number whose
highest byte is the first one; and two hashes with one text are equal.  Two hashes compare
as their texts do, by the characters and by the bytes that write them, and as their numbers
of 256 bits do. -/
theorem texts_keep_hashes_and_order (a b : Hash) :
    a.text.length = 64 ∧
    (∀ c ∈ a.text.toList, c ∈ Hex.digits) ∧
    Hex.ofText? a.text = some a.toBytes ∧
    (∀ s, Hex.ofText? s = some a.toBytes → s = a.text) ∧
    Hex.number a.text = a.number ∧
    (a.text = b.text ↔ a = b) ∧
    compare a b = compare a.text b.text ∧
    compare a b = compare (Put.utf8 a.text) (Put.utf8 b.text) ∧
    a.number < 2 ^ 256 ∧
    compare a b = compare a.number b.number := by
  have hlen : a.toBytes.length = b.toBytes.length := by
    rw [length_toBytes, length_toBytes]
  refine ⟨a.length_text, fun c => Hex.mem_digits_of_mem_text, Hex.ofText?_eq_some_iff.2 rfl,
    fun s => Hex.ofText?_eq_some_iff.1, Hex.number_text a.toBytes,
    Hex.text_inj.trans toBytes_inj, ?_, ?_, a.number_lt, ?_⟩
  · exact (Hex.compare_text a.toBytes b.toBytes).symm
  · exact (Hex.compare_utf8_text a.toBytes b.toBytes).symm
  · exact (Bytes.compare_ofBigEndian hlen).symm

/-- The hypotheses are satisfiable: the hash whose bytes are all ten has the letter `a` in
its text, which is `0a` in every place, and comes after the hash whose bytes are all nine. -/
theorem texts_keep_hashes_and_order_ten_nine :
    'a' ∈ Hex.digits ∧
    String.ofList (List.replicate 32 ['0', 'a']).flatten = text ⟨Vector.replicate 32 10⟩ ∧
    compare (text ⟨Vector.replicate 32 10⟩) (text ⟨Vector.replicate 32 9⟩) = .gt ∧
    compare (number ⟨Vector.replicate 32 10⟩) (number ⟨Vector.replicate 32 9⟩) = .gt := by
  obtain ⟨-, hdigits, -, honly, -, -, htext, -, -, hnumber⟩ :=
    texts_keep_hashes_and_order ⟨Vector.replicate 32 10⟩ ⟨Vector.replicate 32 9⟩
  have hletter : 'a' ∈ (text ⟨Vector.replicate 32 10⟩).toList := by
    rw [text, Hex.text, String.toList_ofList]
    decide
  refine ⟨hdigits 'a' hletter, honly _ ?_, htext.symm.trans rfl, hnumber.symm.trans rfl⟩
  rw [Hex.ofText?, String.toList_ofList]
  rfl

end Hash
end LightWire
