/-
# Tags of enumerations

A variant is one byte, its ordinal.  The table of an enumeration may be
inconsistent in any way, and what is written or read is checked against it.  The
checks come in one order, and the first that fails decides:

| | refused, in this order, when | as |
| --- | --- | --- |
| written: an ordinal | the table has more than 256 variants | `tooManyVariants` |
| | the ordinal is beyond the table | `invalidVariant` |
| read: a whole input | the table has more than 256 variants | `tooManyVariants` |
| | there is no byte | `unexpectedEnd` |
| | the first byte is beyond the table or stands for no value | `invalidVariant` |
| | more bytes follow it | `trailingBytes` |

`writtenTag` and `readTag` are this table as functions, and every operation on
tags is one of them (`tags_are_checked_in_order`).  What a lawful table adds is that
no ordinal is beyond it and none stands for another value, so its values and the
bytes below the count of its variants are one to one (`tags_are_bytes_below_count`).
-/

import LightWire.Codec
import LightWire.Proofs.Cuts
import Mathlib.Data.Set.Function

namespace LightWire

namespace Get

variable {name : String} {count m p : Nat}

/-! ### Reading a tag -/

/-- A byte that is there is read as itself. -/
theorem scalar_cons (b : UInt8) (bs : Bytes) :
    (scalar : Get UInt8) m ⟨p, b :: bs⟩ = (.ok b, ⟨p + 1, bs⟩) :=
  (accepts_scalar _ _ _ _).2 ⟨[b], bs, (Scalar.toBytes_byte b).symm, rfl, rfl⟩

theorem scalar_nil : (scalar : Get UInt8) m ⟨p, []⟩ = (.error .unexpectedEnd, ⟨p, []⟩) := by
  rw [scalar_eq_bind, bind_apply, raw, ofCursor, Cursor.take_of_lt Nat.one_pos]
  rfl

/-- No byte is taken for a tag that none can hold. -/
theorem tag_of_many (h : 256 < count) (c : Cursor) :
    tag name count m c = (.error (.tooManyVariants name count), c) := by
  have hmany : Put.maxVariants < count := h
  rw [tag, if_pos hmany]
  rfl

theorem tag_nil (h : count ≤ 256) :
    tag name count m ⟨p, []⟩ = (.error .unexpectedEnd, ⟨p, []⟩) := by
  have hfew : ¬Put.maxVariants < count := Nat.not_lt.2 h
  rw [tag, if_neg hfew, bind_apply, scalar_nil]

/-- **One byte is taken for a tag,** also when it is refused. -/
theorem tag_cons (h : count ≤ 256) (b : UInt8) (bs : Bytes) :
    tag name count m ⟨p, b :: bs⟩ =
      (if hb : b.toNat < count then .ok ⟨b.toNat, hb⟩
        else .error (.invalidVariant name b.toNat count), ⟨p + 1, bs⟩) := by
  have hfew : ¬Put.maxVariants < count := Nat.not_lt.2 h
  rw [tag, if_neg hfew, bind_apply, scalar_cons]
  by_cases hb : b.toNat < count
  · simp only [dif_pos hb]
    rfl
  · simp only [dif_neg hb]
    rfl

end Get

namespace Enumeration

variable {α : Type} {e : Enumeration α}

/-! ### The checks in order -/

/-- What is answered to an ordinal that is to be written. -/
def writtenTag (e : Enumeration α) (b : UInt8) : Except WireError Bytes :=
  if 256 < e.count then .error (.tooManyVariants e.name e.count)
  else if e.count ≤ b.toNat then .error (.invalidVariant e.name b.toNat e.count)
  else .ok [b]

/-- What a byte stands for. -/
def tagValue (e : Enumeration α) (b : UInt8) : Except WireError α :=
  if e.count ≤ b.toNat then .error (.invalidVariant e.name b.toNat e.count)
  else match e.ofOrdinal? b with
    | none => .error (.invalidVariant e.name b.toNat e.count)
    | some x => .ok x

/-- What is answered to a whole input that is to be read. -/
def readTag (e : Enumeration α) (data : Bytes) : Except WireError α :=
  if 256 < e.count then .error (.tooManyVariants e.name e.count)
  else match data with
    | [] => .error .unexpectedEnd
    | b :: rest => match e.tagValue b with
      | .error w => .error w
      | .ok x => if rest = [] then .ok x else .error (.trailingBytes 1 rest.length)

theorem writtenTag_eq_ok_iff {b : UInt8} {bs : Bytes} :
    e.writtenTag b = .ok bs ↔ e.count ≤ 256 ∧ b.toNat < e.count ∧ bs = [b] := by
  unfold writtenTag
  split
  · simp [Nat.not_le.2 ‹_›]
  · split
    · simp [Nat.not_lt.2 ‹_›]
    · simp [Nat.not_lt.1 ‹¬256 < e.count›, Nat.not_le.1 ‹¬e.count ≤ b.toNat›, eq_comm]

theorem tagValue_eq_ok_iff {b : UInt8} {x : α} :
    e.tagValue b = .ok x ↔ b.toNat < e.count ∧ e.ofOrdinal? b = some x := by
  unfold tagValue
  split
  · simp [Nat.not_lt.2 ‹_›]
  · cases e.ofOrdinal? b with
    | none => simp
    | some y => simp [Nat.not_le.1 ‹_›]

/-- **One byte is read, and none more.** -/
theorem readTag_eq_ok_iff {data : Bytes} {x : α} :
    e.readTag data = .ok x ↔
      e.count ≤ 256 ∧ ∃ b, data = [b] ∧ b.toNat < e.count ∧ e.ofOrdinal? b = some x := by
  rcases Nat.lt_or_ge 256 e.count with hmany | hfew
  · simp [readTag, hmany, Nat.not_le.2 hmany]
  · unfold readTag
    rw [if_neg (Nat.not_lt.2 hfew)]
    cases data with
    | nil => simp
    | cons b rest =>
      constructor
      · intro h
        cases hvalue : e.tagValue b with
        | error w =>
          simp only [hvalue] at h
          exact nomatch h
        | ok y =>
          simp only [hvalue] at h
          split at h
          · obtain rfl := Except.ok.inj h
            obtain ⟨hlt, hx⟩ := tagValue_eq_ok_iff.1 hvalue
            exact ⟨hfew, b, by rw [‹rest = []›], hlt, hx⟩
          · exact nomatch h
      · rintro ⟨-, _, hdata, hlt, hx⟩
        obtain ⟨rfl, rfl⟩ := List.cons.inj hdata
        simp only [tagValue_eq_ok_iff.2 ⟨hlt, hx⟩, if_true]

/-! ### Writing -/

/-- An ordinal is written as its byte or not at all. -/
theorem tag_eq (e : Enumeration α) (b : UInt8) :
    Put.tag e.name b.toNat e.count = match e.writtenTag b with
      | .ok bs => .raw bs
      | .error w => .fail w := by
  unfold Put.tag writtenTag Put.maxVariants
  rcases Nat.lt_or_ge 256 e.count with hmany | hfew
  · simp only [if_pos hmany]
  · simp only [if_neg (Nat.not_lt.2 hfew)]
    rcases Nat.lt_or_ge b.toNat e.count with hlt | hge
    · simp only [if_pos hlt, if_neg (Nat.not_le.2 hlt), UInt8.ofNat_toNat]
    · simp only [if_neg (Nat.not_lt.2 hge), if_pos hge]

theorem encodeOrdinal_eq (e : Enumeration α) (b : UInt8) : e.encodeOrdinal b = e.writtenTag b := by
  rw [encodeOrdinal, tag_eq]
  cases e.writtenTag b with
  | error w => rfl
  | ok bs => rfl

theorem encodeVariant_eq (e : Enumeration α) (x : α) :
    e.encodeVariant x = e.writtenTag (e.ordinal x) :=
  e.encodeOrdinal_eq (e.ordinal x)

/-- **A buffer takes the byte or stays.** -/
theorem put_put (e : Enumeration α) (x : α) (b : Buffer) :
    b.put (e.put x) = match e.writtenTag (e.ordinal x) with
      | .ok bs => (.ok (), b.append bs)
      | .error w => (.error w, b) := by
  rw [put, tag_eq]
  cases e.writtenTag (e.ordinal x) with
  | error w => exact b.put_fail w
  | ok bs => rfl

/-! ### Reading -/

variable {m p : Nat}

theorem get_of_many (h : 256 < e.count) (c : Cursor) :
    e.get m c = (.error (.tooManyVariants e.name e.count), c) := by
  rw [get, Get.bind_apply, Get.tag_of_many h]

theorem get_nil (h : e.count ≤ 256) : e.get m ⟨p, []⟩ = (.error .unexpectedEnd, ⟨p, []⟩) := by
  rw [get, Get.bind_apply, Get.tag_nil h]

/-- **One byte is taken for a value,** whatever it stands for. -/
theorem get_cons (h : e.count ≤ 256) (b : UInt8) (bs : Bytes) :
    e.get m ⟨p, b :: bs⟩ = (e.tagValue b, ⟨p + 1, bs⟩) := by
  rw [get, Get.bind_apply, Get.tag_cons h, tagValue]
  rcases Nat.lt_or_ge b.toNat e.count with hlt | hge
  · simp only [dif_pos hlt, if_neg (Nat.not_le.2 hlt), UInt8.ofNat_toNat]
    cases e.ofOrdinal? b with
    | none => rfl
    | some x => rfl
  · simp only [dif_neg (Nat.not_lt.2 hge), if_pos hge]

/-- **A whole input is read by the checks in order.** -/
theorem decodeVariant_eq (e : Enumeration α) (data : Bytes) :
    e.decodeVariant data = e.readTag data := by
  unfold decodeVariant readTag
  rcases Nat.lt_or_ge 256 e.count with hmany | hfew
  · rw [if_pos hmany]
    exact Get.whole_of_error (get_of_many hmany _)
  · rw [if_neg (Nat.not_lt.2 hfew)]
    cases data with
    | nil => exact Get.whole_of_error (get_nil hfew)
    | cons b rest =>
      have hget : e.get ({} : Options).maxLen (.ofBytes (b :: rest)) = (e.tagValue b, ⟨1, rest⟩) :=
        get_cons hfew b rest
      -- Bytes that follow are looked at only once the first one gave a value.
      cases hvalue : e.tagValue b with
      | error w =>
        rw [hvalue] at hget
        simp only [hvalue]
        exact Get.whole_of_error hget
      | ok x =>
        rw [hvalue] at hget
        simp only [hvalue]
        rw [Get.whole_of_ok hget]
        cases rest with
        | nil => rfl
        | cons b' rest => rfl

/-! ### Lawful tables -/

/-- In a lawful table a byte stands for a value exactly when it is its ordinal. -/
theorem Lawful.ofOrdinal?_eq_some_iff (h : e.Lawful) {b : UInt8} {x : α} :
    e.ofOrdinal? b = some x ↔ e.ordinal x = b := by
  rw [h.ofOrdinal?_eq]
  constructor
  · intro hx
    obtain ⟨hb, rfl⟩ := List.getElem?_eq_some_iff.1 hx
    exact UInt8.toNat_inj.1 (h.ordinal_getElem b.toNat hb)
  · rintro rfl
    exact h.getElem?_ordinal x

/-- A value of a lawful table is its ordinal as one byte. -/
theorem Lawful.encodeVariant_eq_ok (h : e.Lawful) (x : α) :
    e.encodeVariant x = .ok [e.ordinal x] := by
  rw [encodeVariant, h.put_eq]
  rfl

/-- **A lawful table reads the one byte of a value and nothing else.** -/
theorem Lawful.decodeVariant_eq_ok_iff (h : e.Lawful) {data : Bytes} {x : α} :
    e.decodeVariant data = .ok x ↔ data = [e.ordinal x] := by
  rw [decodeVariant_eq, readTag_eq_ok_iff]
  constructor
  · rintro ⟨-, b, rfl, -, hx⟩
    rw [h.ofOrdinal?_eq_some_iff.1 hx]
  · rintro rfl
    exact ⟨h.count_le, _, rfl, h.ordinal_lt x, h.ofOrdinal?_eq_some_iff.2 rfl⟩

/-- The values of a lawful table and the bytes below the count of its variants are
one to one. -/
theorem Lawful.bijOn_encodeVariant (h : e.Lawful) :
    Set.BijOn e.encodeVariant Set.univ {r | ∃ b : UInt8, b.toNat < e.count ∧ r = .ok [b]} := by
  refine ⟨fun x _ => ⟨e.ordinal x, h.ordinal_lt x, h.encodeVariant_eq_ok x⟩, fun x _ y _ hxy => ?_,
    ?_⟩
  · rw [h.encodeVariant_eq_ok, h.encodeVariant_eq_ok] at hxy
    have hordinal : e.ordinal x = e.ordinal y := (List.cons.inj (Except.ok.inj hxy)).1
    have hx := h.ofOrdinal?_eq_some_iff.2 hordinal
    rw [h.ofOrdinal?_eq_some_iff.2 rfl] at hx
    exact (Option.some.inj hx).symm
  · rintro _ ⟨b, hb, rfl⟩
    refine ⟨e.variants[b.toNat], Set.mem_univ _, ?_⟩
    have hordinal := UInt8.toNat_inj.1 (h.ordinal_getElem b.toNat hb)
    rw [h.encodeVariant_eq_ok, hordinal]

/-- **Tags are checked in one order, whatever the table.**  A value, its ordinal and
the value put into any buffer are answered the same: an ordinal of too many
variants is refused as such, else one beyond the table, and else it is one byte,
which the buffer takes; a refusal leaves the buffer as it was.  An input is refused
for too many variants even if it is empty, else for its end, else for what its
first byte stands for, and only then for bytes after it.  So a value is read back
from what is written of it exactly when one byte tells the variants apart, its
ordinal is among them and stands for it. -/
theorem tags_are_checked_in_order (e : Enumeration α) :
    (∀ x, e.encodeVariant x = e.writtenTag (e.ordinal x) ∧
      e.encodeOrdinal (e.ordinal x) = e.writtenTag (e.ordinal x) ∧
      ∀ b : Buffer, b.put (e.put x) = match e.writtenTag (e.ordinal x) with
        | .ok bs => (.ok (), b.append bs)
        | .error w => (.error w, b)) ∧
    (∀ data, e.decodeVariant data = e.readTag data) ∧
    (∀ x, (∃ bs, e.encodeVariant x = .ok bs ∧ e.decodeVariant bs = .ok x) ↔
      e.count ≤ 256 ∧ (e.ordinal x).toNat < e.count ∧ e.ofOrdinal? (e.ordinal x) = some x) := by
  refine ⟨fun x => ⟨e.encodeVariant_eq x, e.encodeOrdinal_eq _, e.put_put x⟩, e.decodeVariant_eq,
    fun x => ?_⟩
  simp only [encodeVariant_eq, decodeVariant_eq, writtenTag_eq_ok_iff, readTag_eq_ok_iff]
  constructor
  · rintro ⟨bs, ⟨hfew, hlt, rfl⟩, -, b, hb, -, hx⟩
    obtain rfl := List.singleton_inj.1 hb
    exact ⟨hfew, hlt, hx⟩
  · rintro ⟨hfew, hlt, hx⟩
    exact ⟨_, ⟨hfew, hlt, rfl⟩, hfew, _, rfl, hlt, hx⟩

/-- **The tags of a lawful table are the bytes below the count of its variants.**
Each value is one of these bytes and each of these bytes is one value, which is
read from this byte and from no other input.  An ordinal is written exactly when
it is among the variants, and then as the value in its place.  By its schema a
value is written and an input read, or refused, as by the table. -/
theorem tags_are_bytes_below_count (e : Enumeration α) (h : e.Lawful) :
    Set.BijOn e.encodeVariant Set.univ {r | ∃ b : UInt8, b.toNat < e.count ∧ r = .ok [b]} ∧
    (∀ data x, e.decodeVariant data = .ok x ↔ e.encodeVariant x = .ok data) ∧
    (∀ b : UInt8, (∃ bs, e.encodeOrdinal b = .ok bs) ↔ b.toNat < e.count) ∧
    (∀ (b : UInt8) (hb : b.toNat < e.variants.length),
      e.encodeOrdinal b = e.encodeVariant e.variants[b.toNat] ∧ e.encodeOrdinal b = .ok [b]) ∧
    (∀ (o : Ownership) (x : α),
      (Schema.enumeration e h : Schema o α).toBytes x = e.encodeVariant x) ∧
    (∀ data, (Schema.enumeration e h).ofBytes {} data = e.decodeVariant data) := by
  have hwritten : ∀ (b : UInt8) bs, e.encodeOrdinal b = .ok bs ↔ b.toNat < e.count ∧ bs = [b] :=
    fun b bs => by
      rw [encodeOrdinal_eq, writtenTag_eq_ok_iff]
      exact and_iff_right h.count_le
  refine ⟨h.bijOn_encodeVariant, fun data x => ?_, fun b => ?_, fun b hb => ?_, fun o x => rfl,
    fun data => rfl⟩
  · rw [h.decodeVariant_eq_ok_iff, h.encodeVariant_eq_ok, Except.ok.injEq, eq_comm]
  · simp only [hwritten, exists_eq_right]
  · have hordinal := UInt8.toNat_inj.1 (h.ordinal_getElem b.toNat hb)
    have hbyte := (hwritten b [b]).2 ⟨hb, rfl⟩
    rw [hbyte, h.encodeVariant_eq_ok, hordinal]
    exact ⟨rfl, rfl⟩

/-- The numbers below `n` are a lawful table, if there are one to 256 of them. -/
theorem lawful_finRange {n : Nat} (pos : 0 < n) (le : n ≤ 256) (name : String) :
    (ofVariants name (List.finRange n)).Lawful :=
  lawful_ofVariants List.mem_finRange (List.nodup_finRange n)
    (Nat.lt_of_lt_of_eq pos List.length_finRange.symm)
    (Nat.le_trans (Nat.le_of_eq List.length_finRange) le)

/-- The hypothesis is satisfiable: the table of the 256 numbers below 256, which is
as large as one byte allows. -/
theorem tags_are_bytes_below_256 :
    (ofVariants "Full" (List.finRange 256)).decodeVariant [255] = .ok 255 ∧
    (ofVariants "Full" (List.finRange 256)).encodeOrdinal 255 = .ok [255] := by
  have hlawful := lawful_finRange (by decide : 0 < 256) (Nat.le_refl 256) "Full"
  obtain ⟨-, hread, -, hordinal, -⟩ := tags_are_bytes_below_count _ hlawful
  have hlt : (255 : UInt8).toNat < (ofVariants "Full" (List.finRange 256)).variants.length := by
    simp only [ofVariants, List.length_finRange]
    decide
  obtain ⟨hvariant, hbyte⟩ := hordinal 255 hlt
  have hlast : (ofVariants "Full" (List.finRange 256)).variants[(255 : UInt8).toNat] = 255 := by
    simp only [ofVariants, List.getElem_finRange]
    rfl
  refine ⟨(hread [255] 255).2 ?_, hbyte⟩
  rw [← hbyte, hvariant]
  exact congrArg _ hlast.symm

end Enumeration
end LightWire
