/-
# Where a read stops

A read that fails leaves the cursor somewhere, and who goes on after the failure goes
on from there.  A read stops as `F` when, at any cursor, it fails with a cause exactly
if `F` gives this cause for the bytes left, and then the cursor is left as many bytes
further on as `F` says.  This is the counterpart of what a read accepts, and reads in a
row stop where the first one stops or, after a form that it accepts, where the second
one does (`Stops.bind`).

| read | cause | the cursor goes on by |
| --- | --- | --- |
| any | fewer bytes are left than it takes at once | 0 |
| `bool`, `optionTag` | a byte that is neither `0` nor `1` | 1 |
| `float` | a pattern that stands for no number | 4 or 8 |
| `length`, `sized`, `text` | a count above the limit | 4 |
| `sized`, `text` | fewer bytes follow the count than it says | 4 |
| `text` | bytes that are not UTF-8 | 4 and the count |
| `tag`, `Enumeration.get` | an enumeration that one byte cannot address | 0 |
| | a byte that is no ordinal, or that of no value | 1 |
-/

import LightWire.Proofs.Sequential

namespace LightWire

/-- Further on by a form and by more is further on by more from after the form. -/
theorem Cursor.advance_append (p : Nat) (a rest : Bytes) (j : Nat) :
    advance ⟨p, a ++ rest⟩ (a.length + j) = advance ⟨p + a.length, rest⟩ j := by
  rw [advance, advance, List.drop_length_add_append, Nat.add_assoc]

/-- Of the bytes left, the cause of a failure and how many of the bytes are taken. -/
abbrev Stop : Type := (left : Bytes) → (cause : WireError) → (taken : Nat) → Prop

namespace Stop

/-- Fewer bytes are left than are taken at once. -/
def short (n : Nat) : Stop := fun b e k => b.length < n ∧ e = .unexpectedEnd ∧ k = 0

/-- No byte is left, or the next one is neither `0` nor `1`. -/
def flag (invalid : UInt8 → WireError) : Stop := fun b e k =>
  short 1 b e k ∨ ∃ x rest, b = x :: rest ∧ 2 ≤ x.toNat ∧ e = invalid x ∧ k = 1

/-- No pattern is left, or the next one stands for no number. -/
def float (p : Precision) : Stop := fun b e k =>
  short p.width.bytes b e k ∨ ∃ (x : FloatBits p) (rest : Bytes),
    b = Scalar.toBytes x ++ rest ∧ x.isNaN = true ∧ e = .nanFloat ∧ k = p.width.bytes

/-- No count is left, or the next one is above the limit. -/
def length (maxLen : Nat) : Stop := fun b e k =>
  short 4 b e k ∨ ∃ n rest, n ≤ Put.maxLength ∧ b = Bytes.littleEndian 4 n ++ rest ∧
    maxLen < n ∧ e = .lengthLimit n maxLen ∧ k = 4

/-- A count stops, or fewer bytes follow it than it says. -/
def sized (maxLen : Nat) : Stop := fun b e k =>
  length maxLen b e k ∨ ∃ n rest, n ≤ Put.maxLength ∧ b = Bytes.littleEndian 4 n ++ rest ∧
    n ≤ maxLen ∧ rest.length < n ∧ e = .unexpectedEnd ∧ k = 4

/-- Counted bytes stop, or they are not UTF-8. -/
def text (maxLen : Nat) : Stop := fun b e k =>
  sized maxLen b e k ∨ ∃ bs rest, bs.length ≤ Put.maxLength ∧
    b = Bytes.littleEndian 4 bs.length ++ (bs ++ rest) ∧ bs.length ≤ maxLen ∧
    Get.ofUtf8? bs = none ∧ e = .invalidUtf8 ∧ k = 4 + bs.length

/-- One byte cannot address the variants; or else no byte is left, or the next one is no
ordinal. -/
def tag (name : String) (count : Nat) : Stop := fun b e k =>
  (Put.maxVariants < count ∧ e = .tooManyVariants name count ∧ k = 0) ∨
    (count ≤ Put.maxVariants ∧ (short 1 b e k ∨ ∃ x rest, b = x :: rest ∧ count ≤ x.toNat ∧
      e = .invalidVariant name x.toNat count ∧ k = 1))

/-- A tag stops, or it is the ordinal of no value. -/
def variant {α : Type} (t : Enumeration α) : Stop := fun b e k =>
  tag t.name t.count b e k ∨ ∃ x rest, t.count ≤ Put.maxVariants ∧ b = x :: rest ∧
    x.toNat < t.count ∧ t.ofOrdinal? x = none ∧
    e = .invalidVariant t.name x.toNat t.count ∧ k = 1

end Stop

namespace Get

variable {α β : Type} {m : Nat}

/-- Under a limit on counts, a read fails exactly as `F` says, at any cursor. -/
def Stops (g : Get α) (maxLen : Nat) (F : Stop) : Prop :=
  ∀ c e c', g maxLen c = (.error e, c') ↔ ∃ k, F c.rest e k ∧ c' = c.advance k

/-- Reads in a row stop where the first one does, or else where the second one does from
where the first one left off. -/
theorem bind_eq_stop_iff {g : Get α} {f : α → Get β} {c c' : Cursor} {e : WireError} :
    (g >>= f) m c = (.error e, c') ↔ g m c = (.error e, c') ∨
      ∃ x c₁, g m c = (.ok x, c₁) ∧ f x m c₁ = (.error e, c') := by
  rw [bind_apply]
  rcases g m c with ⟨e' | x, c₁⟩
  · simp
  · constructor
    · intro h
      exact .inr ⟨x, c₁, rfl, h⟩
    · rintro (h | ⟨_, _, ⟨⟩, h⟩)
      · exact nomatch h
      · exact h

namespace Stops

variable {g : Get α} {F F' : Stop} {V : α → Bytes → Prop}

theorem congr (hg : g.Stops m F) (h : ∀ b e k, F b e k ↔ F' b e k) : g.Stops m F' := by
  intro c e c'
  simp only [hg c e c', h]

protected theorem pure (x : α) : (pure x : Get α).Stops m fun _ _ _ => False := by
  intro c e c'
  simp

protected theorem fail (e₀ : WireError) : (Get.fail e₀ : Get α).Stops m
    fun _ e k => e = e₀ ∧ k = 0 := by
  intro c e c'
  simp only [Get.fail, Prod.mk.injEq, Except.error.injEq]
  constructor
  · rintro ⟨rfl, rfl⟩
    exact ⟨0, ⟨rfl, rfl⟩, rfl⟩
  · rintro ⟨_, ⟨rfl, rfl⟩, rfl⟩
    exact ⟨rfl, rfl⟩

/-- **Reads in a row stop one after another:** as the first one, or after a form that it
accepts as the second one. -/
protected theorem bind {f : α → Get β} {G : α → Stop} (hg : g.Stops m F) (hV : g.Accepts m V)
    (hf : ∀ x, (f x).Stops m (G x)) :
    (g >>= f).Stops m fun b e k => F b e k ∨
      ∃ x a rest j, V x a ∧ b = a ++ rest ∧ G x rest e j ∧ k = a.length + j := by
  intro c e c'
  obtain ⟨p, b⟩ := c
  rw [bind_eq_stop_iff, hg]
  constructor
  · rintro (⟨k, hF, rfl⟩ | ⟨x, c₁, hx, hstop⟩)
    · exact ⟨k, .inl hF, rfl⟩
    · obtain ⟨a, rest, ha, rfl, rfl⟩ := (hV _ _ _ _).1 hx
      obtain ⟨j, hG, rfl⟩ := (hf x _ _ _).1 hstop
      exact ⟨_, .inr ⟨x, a, rest, j, ha, rfl, hG, rfl⟩, (Cursor.advance_append p a rest j).symm⟩
  · rintro ⟨k, hF | ⟨x, a, rest, j, ha, hb, hG, rfl⟩, rfl⟩
    · exact .inl ⟨k, hF, rfl⟩
    · obtain rfl : b = a ++ rest := hb
      exact .inr ⟨x, _, (hV _ _ _ _).2 ⟨a, rest, ha, rfl, rfl⟩,
        (hf x _ _ _).2 ⟨j, hG, Cursor.advance_append p a rest j⟩⟩

/-- What reads nothing more may refuse a value that was read. -/
protected theorem guard {f : α → Get β} {R : α → WireError → Prop} (hg : g.Stops m F)
    (hV : g.Accepts m V) (hf : ∀ x, (f x).Stops m fun _ e k => R x e ∧ k = 0) :
    (g >>= f).Stops m fun b e k => F b e k ∨
      ∃ x a rest, V x a ∧ b = a ++ rest ∧ R x e ∧ k = a.length :=
  (hg.bind hV hf).congr fun b e k => or_congr_right <| by
    constructor
    · rintro ⟨x, a, rest, _, ha, rfl, ⟨hR, rfl⟩, rfl⟩
      exact ⟨x, a, rest, ha, rfl, hR, rfl⟩
    · rintro ⟨x, a, rest, ha, rfl, hR, rfl⟩
      exact ⟨x, a, rest, 0, ha, rfl, ⟨hR, rfl⟩, rfl⟩

/-- A value computed from one that was read stops as the latter. -/
protected theorem map {f : α → β} (hg : g.Stops m F) :
    (g >>= fun x => pure (f x)).Stops m F := by
  intro c e c'
  rw [bind_eq_stop_iff, hg]
  simp

end Stops

/-! ### Single reads -/

theorem stops_raw (n : Nat) : (raw n).Stops m (.short n) := by
  intro c e c'
  unfold raw ofCursor
  by_cases h : n ≤ c.size
  · have henough : ¬c.rest.length < n := Nat.not_lt.2 h
    rw [Cursor.take_of_le h]
    simp [Stop.short, henough]
  · have hshort : c.rest.length < n := Nat.not_le.1 h
    rw [Cursor.take_of_lt (Nat.not_le.1 h)]
    simp only [Prod.mk.injEq, Except.error.injEq, Stop.short]
    constructor
    · rintro ⟨rfl, rfl⟩
      exact ⟨0, ⟨hshort, rfl, rfl⟩, rfl⟩
    · rintro ⟨_, ⟨-, rfl, rfl⟩, rfl⟩
      exact ⟨rfl, rfl⟩

theorem stops_scalar [Scalar α] : (scalar : Get α).Stops m (.short (Scalar.size α)) := by
  rw [scalar_eq_bind]
  exact (stops_raw _).map

/-- A byte that was read may be refused. -/
theorem Stops.guardByte {f : UInt8 → Get α} {R : UInt8 → WireError → Prop}
    (hf : ∀ x, (f x).Stops m fun _ e k => R x e ∧ k = 0) :
    (scalar >>= f).Stops m fun b e k =>
      Stop.short 1 b e k ∨ ∃ x rest, b = x :: rest ∧ R x e ∧ k = 1 := by
  refine (stops_scalar.guard accepts_scalar hf).congr fun b e k => or_congr_right ?_
  simp only [Scalar.toBytes_byte]
  constructor
  · rintro ⟨x, _, rest, rfl, rfl, hR, rfl⟩
    exact ⟨x, rest, rfl, hR, rfl⟩
  · rintro ⟨x, rest, rfl, hR, rfl⟩
    exact ⟨x, _, rest, rfl, rfl, hR, rfl⟩

theorem stops_flag (invalid : UInt8 → WireError) : (flag invalid).Stops m (.flag invalid) := by
  have hbyte : ∀ byte : UInt8, (if byte = 0 then pure false else if byte = 1 then pure true
      else fail (invalid byte) : Get Bool).Stops m
        fun _ e k => (2 ≤ byte.toNat ∧ e = invalid byte) ∧ k = 0 := by
    intro byte
    split
    · subst byte
      exact (Stops.pure false).congr fun b e k => by simp
    · split
      · subst byte
        exact (Stops.pure true).congr fun b e k => by simp
      · rename_i hzero hone
        have habove : 2 ≤ byte.toNat := by
          rw [← UInt8.toNat_inj] at hzero hone
          simp only [UInt8.reduceToNat] at hzero hone
          omega
        exact (Stops.fail _).congr fun b e k => by simp [habove]
  exact (Stops.guardByte hbyte).congr fun b e k => by simp only [Stop.flag, and_assoc]

theorem stops_float (p : Precision) : (float p).Stops m (.float p) := by
  have hnumber : ∀ x : FloatBits p, (if x.isNaN then fail .nanFloat else pure x : Get _).Stops m
      fun _ e k => (x.isNaN = true ∧ e = .nanFloat) ∧ k = 0 := by
    intro x
    split
    · exact (Stops.fail _).congr fun b e k => by simp [*]
    · exact (Stops.pure x).congr fun b e k => by simp [*]
  refine (stops_scalar.guard accepts_scalar hnumber).congr fun b e k => or_congr_right ?_
  constructor
  · rintro ⟨x, _, rest, rfl, rfl, ⟨hx, he⟩, rfl⟩
    exact ⟨x, rest, rfl, hx, he, Scalar.length_toBytes x⟩
  · rintro ⟨x, rest, rfl, hx, he, rfl⟩
    exact ⟨x, _, rest, rfl, rfl, ⟨hx, he⟩, (Scalar.length_toBytes x).symm⟩

theorem stops_within (n : Nat) :
    (within n).Stops m fun _ e k => (m < n ∧ e = .lengthLimit n m) ∧ k = 0 := by
  intro c e c'
  unfold within
  split
  · rename_i habove
    simp only [habove, true_and]
    exact Stops.fail (α := Nat) _ c e c'
  · simp [Get.pure, *]

theorem stops_length : length.Stops m (.length m) := by
  rw [length_eq_bind]
  refine (stops_scalar.guard accepts_scalar fun word : UInt32 => stops_within word.toNat).congr
    fun b e k => or_congr_right ?_
  constructor
  · rintro ⟨word, _, rest, rfl, rfl, ⟨hlimit, he⟩, rfl⟩
    exact ⟨word.toNat, rest, Nat.le_of_lt_succ word.toNat_lt, rfl, hlimit, he,
      Scalar.length_toBytes word⟩
  · rintro ⟨n, rest, hmax, rfl, hlimit, he, rfl⟩
    have hword : (UInt32.ofNat n).toNat = n := UInt32.toNat_ofNat_of_lt' (Nat.lt_succ_of_le hmax)
    have hbytes : Scalar.toBytes (UInt32.ofNat n) = Bytes.littleEndian 4 n :=
      congrArg (Bytes.littleEndian 4) hword
    refine ⟨.ofNat n, _, rest, hbytes.symm, rfl, ?_, (Bytes.length_littleEndian 4 n).symm⟩
    rw [hword]
    exact ⟨hlimit, he⟩

/-- **Counted bytes stop at their count or,** after a count within the limit, where fewer
bytes follow. -/
theorem stops_sized : sized.Stops m (.sized m) := by
  refine (stops_length.bind accepts_length fun n => (stops_raw n).map).congr
    fun b e k => or_congr_right ?_
  simp only [Put.length_eq_raw_iff]
  constructor
  · rintro ⟨n, _, rest, _, ⟨hn, hmax, rfl⟩, rfl, ⟨hshort, rfl, rfl⟩, rfl⟩
    exact ⟨n, rest, hmax, rfl, hn, hshort, rfl, Bytes.length_littleEndian 4 n⟩
  · rintro ⟨n, rest, hmax, rfl, hn, hshort, rfl, rfl⟩
    exact ⟨n, _, rest, 0, ⟨hn, hmax, rfl⟩, rfl, ⟨hshort, rfl, rfl⟩,
      (Bytes.length_littleEndian 4 n).symm⟩

theorem stops_text : text.Stops m (.text m) := by
  unfold text
  refine (stops_sized.guard accepts_sized
    (R := fun bs e => ofUtf8? bs = none ∧ e = .invalidUtf8) fun bs => ?_).congr
      fun b e k => or_congr_right ?_
  · cases ofUtf8? bs with
    | none => exact (Stops.fail _).congr fun b e k => by simp
    | some s => exact (Stops.pure s).congr fun b e k => by simp
  · have hlen : ∀ bs : Bytes, (Bytes.littleEndian 4 bs.length ++ bs).length = 4 + bs.length := by
      intro bs
      rw [List.length_append, Bytes.length_littleEndian]
    simp only [Put.sized_eq_raw_iff]
    constructor
    · rintro ⟨bs, _, rest, ⟨hn, hmax, rfl⟩, rfl, ⟨hnone, he⟩, rfl⟩
      exact ⟨bs, rest, hmax, List.append_assoc .., hn, hnone, he, hlen bs⟩
    · rintro ⟨bs, rest, hmax, rfl, hn, hnone, he, rfl⟩
      exact ⟨bs, _, rest, ⟨hn, hmax, rfl⟩, (List.append_assoc ..).symm, ⟨hnone, he⟩,
        (hlen bs).symm⟩

theorem stops_tag (name : String) (count : Nat) : (tag name count).Stops m (.tag name count) := by
  have hbyte : ∀ byte : UInt8, (if h : byte.toNat < count then pure ⟨byte.toNat, h⟩
      else fail (.invalidVariant name byte.toNat count) : Get (Fin count)).Stops m
        fun _ e k =>
          (count ≤ byte.toNat ∧ e = .invalidVariant name byte.toNat count) ∧ k = 0 := by
    intro byte
    split
    · exact (Stops.pure _).congr fun b e k => by simp [Nat.not_le.2 ‹_›]
    · exact (Stops.fail _).congr fun b e k => by simp [Nat.not_lt.1 ‹_›]
  unfold tag
  split
  · rename_i hmany
    exact (Stops.fail _).congr fun b e k => by simp [Stop.tag, hmany, Nat.not_le.2 hmany]
  · rename_i hfew
    refine (Stops.guardByte hbyte).congr fun b e k => ?_
    simp only [Stop.tag, hfew, Nat.not_lt.1 hfew, false_and, false_or, true_and, and_assoc]

/-- A tag is read as one byte, if one byte tells the variants apart. -/
theorem accepts_tag_byte (name : String) (count : Nat) : (tag name count).Accepts m
    fun i e => count ≤ Put.maxVariants ∧ e = [UInt8.ofNat i.val] := by
  by_cases hcount : count ≤ Put.maxVariants
  · refine (accepts_tag name hcount).congr fun i e => ?_
    simp only [Put.tag_eq_raw_iff, i.isLt, true_and]
  · rw [tag, if_pos (Nat.not_le.1 hcount)]
    exact (Accepts.fail _).congr fun i e => by simp [hcount]

theorem stops_enumeration (t : Enumeration α) : t.get.Stops m (.variant t) := by
  unfold Enumeration.get
  refine ((stops_tag t.name t.count).guard (accepts_tag_byte t.name t.count)
    (R := fun i e => t.ofOrdinal? (UInt8.ofNat i.val) = none ∧
      e = .invalidVariant t.name i.val t.count) fun i => ?_).congr
        fun b e k => or_congr_right ?_
  · cases t.ofOrdinal? (UInt8.ofNat i.val) with
    | none => exact (Stops.fail _).congr fun b e k => by simp
    | some x => exact (Stops.pure x).congr fun b e k => by simp
  · constructor
    · rintro ⟨i, _, rest, ⟨hcount, rfl⟩, rfl, ⟨hnone, he⟩, rfl⟩
      have hi : (UInt8.ofNat i.val).toNat = i.val :=
        UInt8.toNat_ofNat_of_lt' (Nat.lt_of_lt_of_le i.isLt hcount)
      refine ⟨_, rest, hcount, rfl, ?_, hnone, ?_, rfl⟩
      · rw [hi]
        exact i.isLt
      · rw [hi]
        exact he
    · rintro ⟨x, rest, hcount, rfl, hx, hnone, he, rfl⟩
      have hbyte : UInt8.ofNat x.toNat = x := UInt8.ofNat_toNat
      refine ⟨⟨x.toNat, hx⟩, _, rest, ⟨hcount, rfl⟩, ?_, ⟨?_, he⟩, rfl⟩
      · rw [hbyte]
        rfl
      · rw [hbyte]
        exact hnone

end Get
end LightWire
