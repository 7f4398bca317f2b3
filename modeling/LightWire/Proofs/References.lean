/-
# Lists of references

A value that is referred to is written as if it were held.  A list of references is
written as the list of what they refer to, with one exception: a reference takes room
whatever it refers to, so the check for elements that take no room never stops it.

| elements | list | written | list of references | written |
| --- | --- | --- | --- | --- |
| take room, or there are none | any | count, elements | any | the same |
| take no room | `n ≠ 0` | refused | `n ≤ 2 ^ 32 - 1` | the count alone |
| | | | `n > 2 ^ 32 - 1` | refused, as any such count |

The last but one line is the one place where something is written that its own reader
refuses: the count stands for `n` elements, and a reader of elements that take no room
accepts no count but zero (`decode_seq_count`).
-/

import LightWire.Proofs.Bytewise

namespace LightWire

/-- Runs that each append nothing append nothing in a row. -/
theorem Put.concat_map_empty {α : Type} {f : α → Put} {xs : List α}
    (h : ∀ x ∈ xs, f x = empty) : concat (xs.map f) = empty := by
  induction xs with
  | nil => rfl
  | cons x xs ih =>
    obtain ⟨hx, hxs⟩ := List.forall_mem_cons.1 h
    rw [List.map_cons, concat_cons, hx, ih hxs, append_empty]

namespace Schema

variable {o : Ownership} {α : Type}

/-! ### What is held and what is referred to -/

/-- An owned schema takes as much room where references may occur. -/
theorem zeroSized_borrow (s : Schema .owned α) : (s.borrow (o := o)).zeroSized = s.zeroSized := by
  induction s with
  | array n s ih => exact congrArg (n == 0 || ·) ih
  | pair s t ihs iht => exact congrArg₂ (· && ·) ihs iht
  | iso f s ih => exact ih
  | unit | scalar | bool | float p | text | raw n | enumeration e he | option s | seq s | variants =>
    rfl
  | ref h s ih => exact absurd h Ownership.noConfusion

/-- **An owned schema writes the same where references may occur.** -/
theorem encode_borrow (s : Schema .owned α) (x : α) :
    (s.borrow (o := o)).encode x = s.encode x := by
  induction s with
  | unit | scalar | bool | float p | text | raw n | enumeration e he => rfl
  | option s ih =>
    cases x with
    | none => rfl
    | some x => exact congrArg (Put.optionTag true ++ ·) (ih x)
  | seq s ih => rw [borrow, encode, encode, zeroSized_borrow, funext ih]
  | array n s ih => rw [borrow, encode, encode, funext ih]
  | pair s t ihs iht => rw [borrow, encode, encode, ihs, iht]
  | variants name pos le payload ih => rw [borrow, encode, encode, ih]
  | iso f s ih => exact ih _
  | ref h s ih => exact absurd h Ownership.noConfusion

/-- **What takes no room is written as nothing,** and never refused. -/
theorem encode_of_zeroSized {s : Schema o α} (h : s.zeroSized = true) (x : α) :
    s.encode x = .empty := by
  induction s with
  | unit => rfl
  | raw n =>
    obtain rfl : n = 0 := eq_of_beq h
    exact congrArg Put.raw (List.eq_nil_of_length_eq_zero x.length_toList)
  | array n s ih =>
    refine Put.concat_map_empty fun y hy => ?_
    rcases Bool.or_eq_true_iff.1 h with hn | hs
    · obtain rfl : n = 0 := eq_of_beq hn
      rw [List.eq_nil_of_length_eq_zero x.length_toList] at hy
      exact absurd hy List.not_mem_nil
    · exact ih hs y
  | pair s t ihs iht =>
    obtain ⟨hs, ht⟩ := Bool.and_eq_true_iff.1 h
    rw [encode, ihs hs, iht ht, Put.append_empty]
  | iso f s ih => exact ih h _
  | scalar | bool | float p | text | enumeration e he | option s | seq s | variants | ref =>
    exact absurd h Bool.false_ne_true

/-! ### Lists -/

/-- A list of references to values. -/
def refs (s : Schema .borrowed α) : Schema .borrowed (List α) := .seq (.ref rfl s)

variable {s : Schema .borrowed α} {xs : List α}

/-- A list of references is its count and what they refer to. -/
theorem encode_refs (s : Schema .borrowed α) (xs : List α) :
    s.refs.encode xs = .length xs.length ++ .concat (xs.map s.encode) := rfl

/-- **References to what takes room are written as what they refer to,** and so is an
empty list of any. -/
theorem encode_refs_eq (h : s.zeroSized = false ∨ xs = []) :
    s.refs.encode xs = (seq s).encode xs := by
  have hpass : (s.zeroSized && !xs.isEmpty) = false := by
    rcases h with h | rfl
    · rw [h, Bool.false_and]
    · exact Bool.and_false _
  rw [encode_refs, encode, hpass]
  rfl

/-- What takes no room is refused in a list, before its count. -/
theorem encode_seq_of_zeroSized {s : Schema o α} (h : s.zeroSized = true) (hx : xs ≠ []) :
    (seq s).encode xs = .fail .zeroSizedCollection := by
  have hstop : (s.zeroSized && !xs.isEmpty) = true := by
    rw [h, Bool.true_and, Bool.not_eq_true', List.isEmpty_eq_false_iff]
    exact hx
  rw [encode, hstop]
  rfl

/-- **References to what takes no room are written as their count alone.** -/
theorem encode_refs_of_zeroSized (h : s.zeroSized = true) :
    s.refs.encode xs = .length xs.length := by
  rw [encode_refs, Put.concat_map_empty fun x _ => encode_of_zeroSized h x, Put.append_empty]

/-! ### Reading a count of what takes no room -/

/-- The count that a list begins with is read back from its four bytes. -/
theorem leadingCount_littleEndian {n : Nat} (h : n ≤ Put.maxLength) (rest : Bytes) :
    (Bytes.littleEndian 4 n ++ rest).leadingCount = n := by
  have hfits : n < Bytes.count 4 := Nat.lt_succ_of_le h
  rw [Bytes.leadingCount, List.take_left' (Bytes.length_littleEndian 4 n),
    Bytes.ofLittleEndian_littleEndian, Nat.mod_eq_of_lt hfits]

/-- Why a count of elements that take no room is refused: as above the limit, or else
for what it counts. -/
def countRefusal (maxLen n : Nat) : WireError :=
  if maxLen < n then .lengthLimit n maxLen else .zeroSizedCollection

/-- **A count of elements that take no room is refused,** unless it is zero. -/
theorem decode_seq_count {s : Schema .owned α} (hs : s.zeroSized = true) {n : Nat} (hn : n ≠ 0)
    (hmax : n ≤ Put.maxLength) (m p : Nat) (rest : Bytes) :
    (seq s).decode m ⟨p, Bytes.littleEndian 4 n ++ rest⟩ =
      (.error (countRefusal m n), ⟨p + 4, rest⟩) := by
  have hsize : 4 ≤ Cursor.size ⟨p, Bytes.littleEndian 4 n ++ rest⟩ := by
    rw [Cursor.size, List.length_append, Bytes.length_littleEndian]
    exact Nat.le_add_right 4 _
  have hafter : Cursor.advance ⟨p, Bytes.littleEndian 4 n ++ rest⟩ 4 = ⟨p + 4, rest⟩ := by
    rw [Cursor.advance, List.drop_left' (Bytes.length_littleEndian 4 n)]
  have hcount := Get.length_of_le (m := m) hsize
  rw [leadingCount_littleEndian hmax, hafter] at hcount
  have hguard : (s.zeroSized && n != 0) = true := by
    rw [hs, Bool.true_and, bne_iff_ne]
    exact hn
  rw [decode, Get.bind_apply, hcount, countRefusal]
  by_cases hlimit : m < n
  · rw [if_pos hlimit, if_pos hlimit]
  · rw [if_neg hlimit, if_neg hlimit]
    dsimp only
    rw [hguard]
    rfl

/-- **References are written as what they refer to, or alone as many as they are.**  If
the elements take room or there are none, a list of references is given out, refused and
put into a buffer as the list of what they refer to.  If the elements take no room and
there are some, the list of them is refused and leaves the buffer as it was; the list of
references is its count in four bytes and nothing more, if the count fits, and is refused
for the count if it does not.  What is held takes as much room and is written as the same
where references may occur; and a count that was written of references to elements that
take no room is refused wherever a list of these elements is to be read, under any
options. -/
theorem references_are_written_as_values :
    (∀ {α : Type} (s : Schema .borrowed α) (xs : List α), s.zeroSized = false ∨ xs = [] →
      s.refs.toBytes xs = (seq s).toBytes xs ∧
      ∀ b : Buffer, b.put (s.refs.encode xs) = b.put ((seq s).encode xs)) ∧
    (∀ {α : Type} (s : Schema .borrowed α) (xs : List α), s.zeroSized = true → xs ≠ [] →
      (seq s).toBytes xs = .error .zeroSizedCollection ∧
      (∀ b : Buffer, b.put ((seq s).encode xs) = (.error .zeroSizedCollection, b)) ∧
      (xs.length ≤ Put.maxLength →
        s.refs.toBytes xs = .ok (Bytes.littleEndian 4 xs.length) ∧
        ∀ b : Buffer, b.put (s.refs.encode xs) =
          (.ok (), b.append (Bytes.littleEndian 4 xs.length))) ∧
      (Put.maxLength < xs.length → ∀ b : Buffer,
        b.put (s.refs.encode xs) = (.error (.lengthOverflow xs.length), b))) ∧
    (∀ {α : Type} (s : Schema .owned α),
      (s.borrow (o := .borrowed)).zeroSized = s.zeroSized ∧
      (∀ xs, (seq (s.borrow (o := .borrowed))).encode xs = (seq s).encode xs) ∧
      (s.zeroSized = true → ∀ xs e, xs ≠ [] → s.borrow.refs.toBytes xs = .ok e →
        ∀ options : Options,
          (seq s).ofBytes options e = .error (countRefusal options.maxLen xs.length) ∧
          ∀ p rest, (⟨options, ⟨p, e ++ rest⟩⟩ : Decoder).run (seq s).decode =
            (.error (countRefusal options.maxLen xs.length), ⟨options, ⟨p + 4, rest⟩⟩))) := by
  refine ⟨fun s xs h => ?_, fun s xs hs hx => ?_, fun s =>
    ⟨s.zeroSized_borrow, fun xs => (seq s).encode_borrow xs, fun hs xs e hx he options => ?_⟩⟩
  · rw [toBytes, toBytes, encode_refs_eq h]
    exact ⟨rfl, fun b => rfl⟩
  · have hcount : s.refs.encode xs = .length xs.length := encode_refs_of_zeroSized hs
    refine ⟨?_, fun b => ?_, fun hfits => ?_, fun hover b => ?_⟩
    · rw [toBytes, encode_seq_of_zeroSized hs hx]
      rfl
    · rw [encode_seq_of_zeroSized hs hx]
      exact b.put_fail _
    · have hwritten := hcount.trans (Put.length_eq_raw_iff.2 ⟨hfits, rfl⟩)
      exact ⟨Put.toExcept_eq_ok_iff.2 hwritten, fun b => by rw [hwritten, Buffer.put_raw]⟩
    · rw [hcount, Put.length, if_neg (Nat.not_le.2 hover)]
      exact b.put_fail _
  · have hborrow : (s.borrow (o := .borrowed)).zeroSized = true := s.zeroSized_borrow.trans hs
    have hwritten := Put.toExcept_eq_ok_iff.1 he
    rw [encode_refs_of_zeroSized hborrow] at hwritten
    obtain ⟨hfits, rfl⟩ := Put.length_eq_raw_iff.1 hwritten
    have hread := decode_seq_count hs (mt List.eq_nil_of_length_eq_zero hx) hfits options.maxLen
    have hwhole := hread 0 []
    rw [List.append_nil] at hwhole
    exact ⟨Get.whole_of_error hwhole, fun p rest => Decoder.run_of_eq (hread p rest)⟩

/-- The hypotheses are satisfiable: a reference to a number is written as the number;
two references to units are four bytes, which are refused for their elements, or as a
count above a limit of one. -/
theorem references_to_units :
    (scalar : Schema .borrowed UInt8).refs.toBytes [7] = .ok [1, 0, 0, 0, 7] ∧
    (seq (unit : Schema .borrowed Unit)).toBytes [(), ()] = .error .zeroSizedCollection ∧
    (unit : Schema .borrowed Unit).refs.toBytes [(), ()] = .ok [2, 0, 0, 0] ∧
    (seq unit).ofBytes {} [2, 0, 0, 0] = .error .zeroSizedCollection ∧
    (seq unit).ofBytes ⟨1, false⟩ [2, 0, 0, 0] = .error (.lengthLimit 2 1) := by
  obtain ⟨hsame, hcount, hread⟩ := references_are_written_as_values
  obtain ⟨hrefused, -, hwritten, -⟩ := hcount unit [(), ()] rfl (List.cons_ne_nil _ _)
  have hbytes := (hwritten (by decide)).1
  obtain ⟨-, -, hrefs⟩ := hread unit
  obtain ⟨hdefault, -⟩ := hrefs rfl [(), ()] _ (List.cons_ne_nil _ _) hbytes {}
  obtain ⟨hlimit, -⟩ := hrefs rfl [(), ()] _ (List.cons_ne_nil _ _) hbytes ⟨1, false⟩
  exact ⟨(hsame scalar [7] (.inl rfl)).1, hrefused, hbytes, hdefault, hlimit⟩

end Schema
end LightWire
