/-
# Bytes at once and one by one

A fixed count of bytes is read at once by `raw` and one by one by `byteArray`, and
a counted byte string at once by `sized` and one by one as a list of bytes.  A key
is written at once and read one by one, so the two must agree:

| | at once | one by one |
| --- | --- | --- |
| enough bytes are left | the bytes, cursor after them | the same |
| fewer are left | the end, cursor stays | the end, cursor at the end |
| a count that is cut off or above the limit | refused | the same |
| a count above what follows it | the end, cursor after it | the end, cursor at the end |
| written | the bytes | the same |
| written with a count that does not fit | refused, nothing appended | the same |

What is read and what is written never differs, only where the cursor is left when
bytes are missing (`bytes_at_once_are_bytes_one_by_one`).
-/

import LightWire.Proofs.Tags

namespace LightWire

/-- The count that the first four bytes of a byte string denote. -/
def Bytes.leadingCount (b : Bytes) : Nat := ofLittleEndian (b.take 4)

/-- A whole count comes next that is within the limit, and fewer bytes follow it than
it says. -/
def Cursor.PayloadShort (c : Cursor) (maxLen : Nat) : Prop :=
  4 ≤ c.size ∧ c.rest.leadingCount ≤ maxLen ∧ c.size < 4 + c.rest.leadingCount

/-- The same input `n` bytes further on, or at its end when fewer are left. -/
def Decoder.advance (n : Nat) (d : Decoder) : Decoder := { d with cursor := d.cursor.advance n }

namespace Get

variable {m n : Nat} {c : Cursor}

/-! ### Reading -/

/-- As many bytes as are left are read at once. -/
theorem raw_of_le (h : n ≤ c.size) :
    ∃ v : Vector UInt8 n, v.toList = c.rest.take n ∧ raw n m c = (.ok v, c.advance n) := by
  have hlen : (c.rest.take n).length = n := List.length_take_of_le h
  refine ⟨⟨(c.rest.take n).toArray, hlen⟩, rfl, ?_⟩
  rw [raw, ofCursor, Cursor.take_of_le h]

theorem raw_of_lt (h : c.size < n) : raw n m c = (.error .unexpectedEnd, c) := by
  rw [raw, ofCursor, Cursor.take_of_lt h]
  rfl

/-- **Bytes that are left are read one by one,** as far as they are many. -/
theorem replicate_byte_of_le (h : n ≤ c.size) :
    replicate (scalar : Get UInt8) n m c =
      (.ok ⟨c.rest.take n, List.length_take_of_le h⟩, c.advance n) := by
  induction n generalizing c with
  | zero => rfl
  | succ n ih =>
    obtain ⟨p, _ | ⟨b, bs⟩⟩ := c
    · exact absurd h (Nat.not_succ_le_zero n)
    · have hrest : n ≤ Cursor.size ⟨p + 1, bs⟩ := Nat.le_of_succ_le_succ h
      have hafter : Cursor.advance ⟨p + 1, bs⟩ n = Cursor.advance ⟨p, b :: bs⟩ (n + 1) := by
        rw [Cursor.advance, Cursor.advance, Nat.add_assoc, Nat.add_comm 1 n]
        rfl
      rw [replicate, bind_apply, scalar_cons]
      dsimp only
      rw [bind_apply, ih hrest, ← hafter]
      rfl

/-- **Bytes that are missing are missed at the end of the input,** once all that are
left were read. -/
theorem replicate_byte_of_lt (h : c.size < n) :
    replicate (scalar : Get UInt8) n m c = (.error .unexpectedEnd, c.advance c.size) := by
  induction n generalizing c with
  | zero => exact absurd h (Nat.not_lt_zero _)
  | succ n ih =>
    obtain ⟨p, _ | ⟨b, bs⟩⟩ := c
    · rw [replicate, bind_apply, scalar_nil]
      rfl
    · have hrest : Cursor.size ⟨p + 1, bs⟩ < n := Nat.lt_of_succ_lt_succ h
      have hafter : Cursor.advance ⟨p + 1, bs⟩ bs.length =
          Cursor.advance ⟨p, b :: bs⟩ (b :: bs).length := by
        rw [Cursor.advance, Cursor.advance, List.length_cons, Nat.add_assoc, Nat.add_comm 1]
        rfl
      rw [replicate, bind_apply, scalar_cons]
      dsimp only
      rw [bind_apply, ih hrest]
      exact congrArg (Prod.mk _) hafter

/-- A count that is cut off is the end of the input. -/
theorem length_of_lt (h : c.size < 4) : length m c = (.error .unexpectedEnd, c) := by
  have hword : raw (Scalar.size UInt32) m c = (.error .unexpectedEnd, c) := raw_of_lt h
  rw [length_eq_bind, bind_apply, scalar_eq_bind, bind_apply, hword]

/-- **A count is the number of its four bytes,** and these are taken also when it is
refused. -/
theorem length_of_le (h : 4 ≤ c.size) :
    length m c =
      (if m < c.rest.leadingCount then .error (.lengthLimit c.rest.leadingCount m)
        else .ok c.rest.leadingCount, c.advance 4) := by
  have hlen : (c.rest.take 4).length = 4 := List.length_take_of_le h
  have hbytes : Scalar.toBytes (Scalar.ofBytes (c.rest.take 4) : UInt32) = c.rest.take 4 :=
    Scalar.toBytes_ofBytes hlen
  have hword : (scalar : Get UInt32) m c = (.ok (Scalar.ofBytes (c.rest.take 4)), c.advance 4) :=
    (accepts_scalar c.position c.rest _ _).2 ⟨c.rest.take 4, c.rest.drop 4, hbytes.symm,
      (List.take_append_drop 4 c.rest).symm, by rw [hlen, Cursor.advance]⟩
  have hfits := Bytes.ofLittleEndian_lt (c.rest.take 4)
  rw [hlen] at hfits
  have hnumber : (Scalar.ofBytes (c.rest.take 4) : UInt32).toNat = c.rest.leadingCount :=
    Width.toNat_ofNat (w := .w32) hfits
  rw [length_eq_bind, bind_apply, hword]
  dsimp only
  rw [hnumber, within]
  split
  · rfl
  · rfl

end Get

namespace Schema

variable {m n : Nat} {c : Cursor} {o : Ownership}

/-- An array of bytes is read where as many are left, as they are read at once. -/
theorem decode_byteArray_of_le (h : n ≤ c.size) : (byteArray n).decode m c = Get.raw n m c := by
  obtain ⟨v, hv, hread⟩ := Get.raw_of_le (m := m) h
  have hbytes : (⟨(c.rest.take n).toArray, List.length_take_of_le h⟩ : Vector UInt8 n) = v :=
    Vector.toList_inj.1 hv.symm
  rw [hread, ← hbytes, byteArray, decode, decode, Get.bind_apply, Get.replicate_byte_of_le h]
  rfl

theorem decode_byteArray_of_lt (h : c.size < n) :
    (byteArray n).decode m c = (.error .unexpectedEnd, c.advance c.size) := by
  rw [byteArray, decode, decode, Get.bind_apply, Get.replicate_byte_of_lt h]

/-- A list of bytes is read as a count and as many bytes, one by one. -/
theorem decode_seq_byte : (seq scalar : Schema .owned (List UInt8)).decode = (do
    let n ← Get.length
    let xs ← Get.replicate (Get.scalar : Get UInt8) n
    pure xs.val) := rfl

/-- **Counted bytes are read both ways alike,** unless fewer follow the count than it
says. -/
theorem sized_eq_decode (h : ¬c.PayloadShort m) :
    Get.sized m c = (seq scalar : Schema .owned (List UInt8)).decode m c := by
  rw [decode_seq_byte, Get.sized, Get.bind_apply, Get.bind_apply]
  rcases Nat.lt_or_ge c.size 4 with hcut | hcount
  · rw [Get.length_of_lt hcut]
  · rw [Get.length_of_le hcount]
    rcases Nat.lt_or_ge m c.rest.leadingCount with hlimit | hwithin
    · rw [if_pos hlimit]
    · -- All bytes that the count says are left, so both ways read them.
      have henough : c.rest.leadingCount ≤ (c.advance 4).size := by
        have hfollow := Nat.le_of_not_lt fun hlt => h ⟨hcount, hwithin, hlt⟩
        rw [Cursor.size_advance]
        omega
      obtain ⟨v, hv, hread⟩ := Get.raw_of_le (m := m) henough
      rw [if_neg (Nat.not_lt.2 hwithin)]
      dsimp only
      rw [Get.bind_apply, Get.bind_apply, hread, Get.replicate_byte_of_le henough]
      exact congrArg (fun bs => (Except.ok bs, _)) hv

/-- **Fewer bytes than their count says** are the end of the input both ways: at once
it is met after the count, and one by one after all bytes that are left. -/
theorem sized_and_decode_of_short (h : c.PayloadShort m) :
    Get.sized m c = (.error .unexpectedEnd, c.advance 4) ∧
    (seq scalar : Schema .owned (List UInt8)).decode m c =
      (.error .unexpectedEnd, c.advance c.size) := by
  obtain ⟨hcount, hwithin, hshort⟩ := h
  have hsize : (c.advance 4).size < c.rest.leadingCount := by
    rw [Cursor.size_advance]
    omega
  have hend : (c.advance 4).advance (c.advance 4).size = c.advance c.size := by
    rw [Cursor.advance_advance, Cursor.size_advance, Nat.add_sub_cancel' hcount]
  have hlength : Get.length m c = (.ok c.rest.leadingCount, c.advance 4) := by
    rw [Get.length_of_le hcount, if_neg (Nat.not_lt.2 hwithin)]
  constructor
  · rw [Get.sized, Get.bind_apply, hlength]
    dsimp only
    rw [Get.bind_apply, Get.raw_of_lt hsize]
  · rw [decode_seq_byte, Get.bind_apply, hlength]
    dsimp only
    rw [Get.bind_apply, Get.replicate_byte_of_lt hsize, hend]

/-! ### Writing -/

/-- Bytes written one by one are written as they are. -/
theorem concat_encode_byte (bs : Bytes) :
    Put.concat (bs.map (scalar : Schema o UInt8).encode) = .raw bs := by
  induction bs with
  | nil => rfl
  | cons b bs ih =>
    rw [List.map_cons, Put.concat_cons, ih, encode, Put.scalar, Scalar.toBytes_byte]
    rfl

theorem encode_byteArray (v : Vector UInt8 n) :
    (byteArray n : Schema o _).encode v = .raw v.toList :=
  concat_encode_byte v.toList

/-- **A list of bytes is written as a counted byte string,** or refused like it. -/
theorem encode_seq_byte (bs : Bytes) :
    (seq scalar : Schema o (List UInt8)).encode bs = .sized bs := by
  have hencode : (seq scalar : Schema o (List UInt8)).encode bs =
      .length bs.length ++ Put.concat (bs.map (scalar : Schema o UInt8).encode) := rfl
  rw [hencode, concat_encode_byte]
  rfl

/-- A buffer takes a counted byte string or stays as it is. -/
theorem put_sized (bs : Bytes) (b : Buffer) :
    b.put (.sized bs) =
      if bs.length ≤ Put.maxLength then
        (.ok (), b.append (Bytes.littleEndian 4 bs.length ++ bs))
      else (.error (.lengthOverflow bs.length), b) := by
  by_cases h : bs.length ≤ Put.maxLength
  · rw [Put.sized_eq_raw_iff.2 ⟨h, rfl⟩, if_pos h]
    rfl
  · rw [Put.sized, Put.length, if_neg h, if_neg h]
    exact b.put_fail _

/-- **Bytes at once are bytes one by one.**  Wherever a decoder is and whatever its
options are, a fixed count of bytes is read both ways exactly if as many are left,
with the same bytes and the same cursor; else both meet the end, the one where it
was and the other at the end of the input.  Counted bytes are the same or are
refused for the same cause both ways, with the same cursor unless fewer follow the
count than it says.  A buffer takes a fixed count of bytes both ways as they are,
and counted bytes both ways as their count and themselves, or it stays as it is
when the count does not fit. -/
theorem bytes_at_once_are_bytes_one_by_one (o : Ownership) (d : Decoder) (b : Buffer) :
    (∀ n ≤ d.remaining, ∃ v : Vector UInt8 n, v.toList = d.cursor.rest.take n ∧
      d.run (Get.raw n) = (.ok v, d.advance n) ∧
      d.run (byteArray n).decode = (.ok v, d.advance n)) ∧
    (∀ n, d.remaining < n →
      d.run (Get.raw n) = (.error .unexpectedEnd, d) ∧
      d.run (byteArray n).decode = (.error .unexpectedEnd, d.advance d.remaining)) ∧
    (d.run Get.sized).1 = (d.run (seq (scalar : Schema .owned UInt8)).decode).1 ∧
    (¬d.cursor.PayloadShort d.options.maxLen →
      d.run Get.sized = d.run (seq (scalar : Schema .owned UInt8)).decode) ∧
    (d.cursor.PayloadShort d.options.maxLen →
      d.run Get.sized = (.error .unexpectedEnd, d.advance 4) ∧
      d.run (seq (scalar : Schema .owned UInt8)).decode =
        (.error .unexpectedEnd, d.advance d.remaining)) ∧
    (∀ (n : Nat) (v : Vector UInt8 n),
      b.put (.raw v.toList) = (.ok (), b.append v.toList) ∧
      b.put ((byteArray n : Schema o _).encode v) = (.ok (), b.append v.toList)) ∧
    (∀ bs : Bytes, b.put ((seq (scalar : Schema o UInt8)).encode bs) = b.put (.sized bs) ∧
      b.put (.sized bs) =
        if bs.length ≤ Put.maxLength then
          (.ok (), b.append (Bytes.littleEndian 4 bs.length ++ bs))
        else (.error (.lengthOverflow bs.length), b)) := by
  have hlong : ¬d.cursor.PayloadShort d.options.maxLen →
      d.run Get.sized = d.run (seq (scalar : Schema .owned UInt8)).decode := fun h =>
    Decoder.run_of_eq (sized_eq_decode h)
  have hshort : d.cursor.PayloadShort d.options.maxLen →
      d.run Get.sized = (.error .unexpectedEnd, d.advance 4) ∧
      d.run (seq (scalar : Schema .owned UInt8)).decode =
        (.error .unexpectedEnd, d.advance d.remaining) := fun h =>
    (sized_and_decode_of_short h).imp Decoder.run_of_eq Decoder.run_of_eq
  refine ⟨fun n hn => ?_, fun n hn => ?_, ?_, hlong, hshort, fun n v => ?_, fun bs => ?_⟩
  · obtain ⟨v, hv, hread⟩ := Get.raw_of_le (m := d.options.maxLen) hn
    have hbytewise := (decode_byteArray_of_le (m := d.options.maxLen) hn).trans hread
    exact ⟨v, hv, Decoder.run_of_eq hread, Decoder.run_of_eq hbytewise⟩
  · exact ⟨Decoder.run_of_eq (Get.raw_of_lt hn), Decoder.run_of_eq (decode_byteArray_of_lt hn)⟩
  · by_cases h : d.cursor.PayloadShort d.options.maxLen
    · obtain ⟨hsized, hlist⟩ := hshort h
      rw [hsized, hlist]
    · rw [hlong h]
  · refine ⟨rfl, ?_⟩
    rw [encode_byteArray]
    rfl
  · rw [encode_seq_byte]
    exact ⟨rfl, put_sized bs b⟩

/-- The hypotheses are satisfiable: of three bytes after the first, two are read and
four are missing; and a count of five stands before two bytes. -/
theorem bytes_at_once_of_short_inputs :
    (∃ v : Vector UInt8 2, v.toList = [8, 9] ∧
      (⟨{}, .seek [7, 8, 9, 10] 1⟩ : Decoder).run (byteArray 2).decode =
        (.ok v, ⟨{}, .seek [7, 8, 9, 10] 3⟩)) ∧
    (⟨{}, .seek [7, 8, 9, 10] 1⟩ : Decoder).run (byteArray 4).decode =
      (.error .unexpectedEnd, ⟨{}, .seek [7, 8, 9, 10] 4⟩) ∧
    (⟨{}, .seek [5, 0, 0, 0, 8, 9] 0⟩ : Decoder).run (seq (scalar : Schema .owned UInt8)).decode =
      (.error .unexpectedEnd, ⟨{}, .seek [5, 0, 0, 0, 8, 9] 6⟩) ∧
    (⟨⟨4, false⟩, .seek [5, 0, 0, 0, 8, 9] 0⟩ : Decoder).run Get.sized =
      (⟨⟨4, false⟩, .seek [5, 0, 0, 0, 8, 9] 0⟩ : Decoder).run
        (seq (scalar : Schema .owned UInt8)).decode := by
  obtain ⟨hread, hmissing, -⟩ :=
    bytes_at_once_are_bytes_one_by_one .owned ⟨{}, .seek [7, 8, 9, 10] 1⟩ .empty
  obtain ⟨v, hv, -, hrun⟩ := hread 2 (by decide)
  obtain ⟨-, -, -, -, hshort, -⟩ :=
    bytes_at_once_are_bytes_one_by_one .owned ⟨{}, .seek [5, 0, 0, 0, 8, 9] 0⟩ .empty
  obtain ⟨-, -, -, hlong, -⟩ :=
    bytes_at_once_are_bytes_one_by_one .owned ⟨⟨4, false⟩, .seek [5, 0, 0, 0, 8, 9] 0⟩ .empty
  exact ⟨⟨v, hv, hrun⟩, (hmissing 4 (by decide)).2,
    (hshort ⟨by decide, by decide, by decide⟩).2, hlong fun h => absurd h.2.1 (by decide)⟩

end Schema
end LightWire
