/-
# What a read accepts

A read accepts the forms `W` when, from any place in any input, it gives a value
`x` exactly if the input goes on with a form `e` that `W` gives to `x`, and then
leaves the cursor just after `e`.  So a read that accepts `W` does not look at
what follows a form, at what stands before it, or at the place where it starts.

Reads in a row accept one form after another (`Accepts.bind`), which gives what
each read of the codec accepts from the reads that it is made of.  A read of one
kind accepts what the write of that kind appends:

| read | accepts for a value |
| --- | --- |
| `raw`, `scalar` | its bytes |
| `bool`, `optionTag` | what `Put.bool` appends |
| `float`, `tag`, `Enumeration.get` | what the write appends, if it ends |
| `length`, `sized`, `text` | that, if the count is within the limit |
-/

import LightWire.Proofs.Run

namespace LightWire
namespace Get

variable {α β : Type}

/-- Under a limit on counts, a read gives a value exactly where the input goes on
with a form of it, and takes that form. -/
def Accepts (g : Get α) (maxLen : Nat) (W : α → Bytes → Prop) : Prop :=
  ∀ p b x c, g maxLen ⟨p, b⟩ = (.ok x, c) ↔
    ∃ e rest, W x e ∧ b = e ++ rest ∧ c = ⟨p + e.length, rest⟩

/-- Reads in a row give a value when each one does. -/
theorem bind_eq_ok_iff {g : Get α} {f : α → Get β} {maxLen : Nat} {c c' : Cursor} {y : β} :
    (g >>= f) maxLen c = (.ok y, c') ↔
      ∃ x c₁, g maxLen c = (.ok x, c₁) ∧ f x maxLen c₁ = (.ok y, c') := by
  rw [bind_apply]
  rcases g maxLen c with ⟨_ | x, c₁⟩
  · simp
  · constructor
    · intro h
      exact ⟨x, c₁, rfl, h⟩
    · rintro ⟨_, _, ⟨⟩, h⟩
      exact h

/-- Reads in a row fail when the first one does, or else when the second one does
from where the first one left off. -/
theorem bind_eq_error_iff {g : Get α} {f : α → Get β} {maxLen : Nat} {c : Cursor}
    {e : WireError} : ((g >>= f) maxLen c).1 = .error e ↔
      (g maxLen c).1 = .error e ∨
        ∃ x c', g maxLen c = (.ok x, c') ∧ (f x maxLen c').1 = .error e := by
  rw [bind_apply]
  rcases g maxLen c with ⟨e' | x, c'⟩
  · simp
  · constructor
    · intro h
      exact .inr ⟨x, c', rfl, h⟩
    · rintro (h | ⟨_, _, ⟨⟩, h⟩)
      · exact nomatch h
      · exact h

namespace Accepts

variable {g : Get α} {m : Nat} {V V' : α → Bytes → Prop}

theorem congr (hg : g.Accepts m V) (h : ∀ x e, V x e ↔ V' x e) : g.Accepts m V' := by
  intro p b x c
  simp only [hg p b x c, h]

protected theorem pure (x : α) : (pure x : Get α).Accepts m fun y e => y = x ∧ e = [] := by
  intro p b y c
  simp only [pure_apply, Prod.mk.injEq, Except.ok.injEq]
  constructor
  · rintro ⟨rfl, rfl⟩
    exact ⟨[], b, ⟨rfl, rfl⟩, rfl, rfl⟩
  · rintro ⟨_, rest, ⟨rfl, rfl⟩, rfl, rfl⟩
    exact ⟨rfl, rfl⟩

protected theorem fail (e : WireError) : (Get.fail e : Get α).Accepts m fun _ _ => False := by
  intro p b x c
  simp [Get.fail]

/-- **Reads in a row accept one form after another.** -/
protected theorem bind {f : α → Get β} {W : α → β → Bytes → Prop} (hg : g.Accepts m V)
    (hf : ∀ x, (f x).Accepts m (W x)) :
    (g >>= f).Accepts m fun y e => ∃ x a b, V x a ∧ W x y b ∧ e = a ++ b := by
  intro p bs y c
  rw [bind_eq_ok_iff]
  constructor
  · rintro ⟨x, c₁, h₁, h₂⟩
    obtain ⟨a, rest, hV, rfl, rfl⟩ := (hg _ _ _ _).1 h₁
    obtain ⟨b, rest, hW, rfl, rfl⟩ := (hf _ _ _ _ _).1 h₂
    exact ⟨a ++ b, rest, ⟨x, a, b, hV, hW, rfl⟩, (List.append_assoc ..).symm, by
      rw [List.length_append, Nat.add_assoc]⟩
  · rintro ⟨_, rest, ⟨x, a, b, hV, hW, rfl⟩, rfl, rfl⟩
    refine ⟨x, ⟨p + a.length, b ++ rest⟩, (hg _ _ _ _).2 ⟨a, _, hV, List.append_assoc .., rfl⟩,
      (hf _ _ _ _ _).2 ⟨b, rest, hW, rfl, ?_⟩⟩
    rw [List.length_append, Nat.add_assoc]

/-- What reads nothing more may refuse a value that was read, or compute another
from it. -/
protected theorem guard {f : α → Get β} {W : α → β → Prop} (hg : g.Accepts m V)
    (hf : ∀ x, (f x).Accepts m fun y e => W x y ∧ e = []) :
    (g >>= f).Accepts m fun y e => ∃ x, V x e ∧ W x y :=
  (hg.bind hf).congr fun y e => by
    constructor
    · rintro ⟨x, a, _, hV, ⟨hW, rfl⟩, rfl⟩
      exact ⟨x, (List.append_nil a).symm ▸ hV, hW⟩
    · rintro ⟨x, hV, hW⟩
      exact ⟨x, e, [], hV, ⟨hW, rfl⟩, (List.append_nil e).symm⟩

/-- A value computed from one that was read has the forms of the latter. -/
protected theorem map {f : α → β} (hg : g.Accepts m V) :
    (g >>= fun x => pure (f x)).Accepts m fun y e => ∃ x, V x e ∧ y = f x :=
  hg.guard fun x => .pure (f x)

end Accepts

/-! ### Single reads -/

variable {m : Nat}

theorem accepts_raw (n : Nat) : (raw n).Accepts m fun v e => e = v.toList := by
  intro p b v c
  unfold raw ofCursor
  by_cases h : n ≤ Cursor.size ⟨p, b⟩
  · rw [Cursor.take_of_le h]
    simp only [Prod.mk.injEq, Except.ok.injEq, ← Vector.toList_inj, Cursor.advance]
    constructor
    · rintro ⟨hv, rfl⟩
      have hv : v.toList = b.take n := by rw [← hv]; rfl
      exact ⟨_, b.drop n, rfl, by rw [hv, List.take_append_drop], by rw [Vector.length_toList]⟩
    · rintro ⟨_, rest, rfl, rfl, rfl⟩
      have hlen : v.toList.length = n := Vector.length_toList
      rw [hlen, List.drop_left' hlen]
      exact ⟨List.take_left' hlen, rfl⟩
  · rw [Cursor.take_of_lt (Nat.not_le.1 h)]
    simp only [Prod.mk.injEq, reduceCtorEq, false_and, false_iff]
    rintro ⟨_, rest, rfl, rfl, -⟩
    exact h (by simp [Cursor.size])

/-- A scalar is read as its bytes at once. -/
theorem scalar_eq_bind [Scalar α] :
    (scalar : Get α) = raw (Scalar.size α) >>= fun field => pure (Scalar.ofBytes field.toList) := by
  funext maxLen c
  rw [bind_apply]
  unfold scalar raw ofCursor Cursor.scalar
  rcases Cursor.take (Scalar.size α) c with ⟨_ | _, _⟩ <;> rfl

theorem accepts_scalar [Scalar α] : (scalar : Get α).Accepts m fun x e => e = Scalar.toBytes x := by
  rw [scalar_eq_bind]
  refine (accepts_raw _).map.congr fun x e => ?_
  constructor
  · rintro ⟨v, rfl, rfl⟩
    rw [Scalar.toBytes_ofBytes Vector.length_toList]
  · rintro rfl
    refine ⟨⟨(Scalar.toBytes x).toArray, by simp⟩, rfl, (Scalar.ofBytes_toBytes x).symm⟩

theorem accepts_flag (invalid : UInt8 → WireError) :
    (flag invalid).Accepts m fun b e => Put.bool b = .raw e := by
  have hbyte : ∀ byte : UInt8, (if byte = 0 then pure false else if byte = 1 then pure true
      else fail (invalid byte) : Get Bool).Accepts m
        fun b e => byte = (if b then 1 else 0) ∧ e = [] := by
    intro byte
    split
    · refine (Accepts.pure false).congr fun b e => ?_
      cases b <;> simp [*]
    · split
      · refine (Accepts.pure true).congr fun b e => ?_
        cases b <;> simp [*]
      · refine (Accepts.fail _).congr fun b e => ?_
        cases b <;> simp [*]
  refine (accepts_scalar.guard hbyte).congr fun b e => ?_
  simp [Put.bool, eq_comm]

theorem accepts_float (p : Precision) :
    (float p).Accepts m fun x e => Put.float x = .raw e := by
  have hnumber : ∀ x : FloatBits p, (if x.isNaN then fail .nanFloat else pure x : Get _).Accepts m
      fun y e => (x.isNaN = false ∧ y = x) ∧ e = [] := by
    intro x
    split
    · exact (Accepts.fail _).congr fun y e => by simp [*]
    · exact (Accepts.pure x).congr fun y e => by simp [*]
  refine (accepts_scalar.guard hnumber).congr fun x e => ?_
  rw [Put.float_eq_raw_iff]
  constructor
  · rintro ⟨_, he, hx, rfl⟩
    exact ⟨hx, he⟩
  · rintro ⟨hx, he⟩
    exact ⟨x, he, hx, rfl⟩

theorem accepts_length : length.Accepts m fun n e => n ≤ m ∧ Put.length n = .raw e := by
  have hword : ∀ word : UInt32, Accepts (fun maxLen =>
      if maxLen < word.toNat then fail (.lengthLimit word.toNat maxLen) maxLen
      else Get.pure word.toNat maxLen) m fun n e => (word.toNat ≤ m ∧ n = word.toNat) ∧ e = [] := by
    intro word
    by_cases h : m < word.toNat
    · intro p b n c
      simp [h, Get.fail, Nat.not_le.2 h]
    · intro p b n c
      simp only [if_neg h]
      exact (Accepts.pure word.toNat p b n c).trans (by simp [Nat.not_lt.1 h])
  refine (accepts_scalar.guard hword).congr fun n e => ?_
  rw [Put.length_eq_raw_iff]
  constructor
  · rintro ⟨word, rfl, hn, rfl⟩
    exact ⟨hn, Nat.le_of_lt_succ word.toNat_lt, rfl⟩
  · rintro ⟨hn, hmax, rfl⟩
    have hword : (UInt32.ofNat n).toNat = n := UInt32.toNat_ofNat_of_lt' (Nat.lt_succ_of_le hmax)
    exact ⟨.ofNat n, congrArg (Bytes.littleEndian 4) hword.symm, by rwa [hword], hword.symm⟩

theorem accepts_sized :
    sized.Accepts m fun bs e => bs.length ≤ m ∧ Put.sized bs = .raw e := by
  refine (accepts_length.bind fun n => (accepts_raw n).map).congr fun bs e => ?_
  rw [Put.sized_eq_raw_iff]
  simp only [Put.length_eq_raw_iff]
  constructor
  · rintro ⟨n, _, _, ⟨hn, hmax, rfl⟩, ⟨v, rfl, rfl⟩, rfl⟩
    rw [Vector.length_toList]
    exact ⟨hn, hmax, rfl⟩
  · rintro ⟨hn, hmax, rfl⟩
    exact ⟨_, _, _, ⟨hn, hmax, rfl⟩, ⟨⟨bs.toArray, rfl⟩, rfl, rfl⟩, rfl⟩

/-- **A text is read from its UTF-8 bytes and from no others.** -/
theorem ofUtf8?_eq_some_iff {bs : Bytes} {s : String} :
    ofUtf8? bs = some s ↔ bs = Put.utf8 s := by
  unfold ofUtf8? String.fromUTF8?
  constructor
  · intro h
    split at h
    · rw [← Option.some.inj h]
      exact List.toList_data_toByteArray.symm
    · exact absurd h (Option.some_ne_none s).symm
  · rintro rfl
    have hs : (Put.utf8 s).toByteArray = s.toByteArray := by
      apply ByteArray.ext
      rw [List.data_toByteArray]
      rfl
    rw [dif_pos (hs ▸ s.isValidUTF8)]
    exact congrArg some (String.toByteArray_inj.1 hs)

theorem accepts_text :
    text.Accepts m fun s e => (Put.utf8 s).length ≤ m ∧ Put.text s = .raw e := by
  unfold text
  refine (accepts_sized.guard (W := fun bs s => bs = Put.utf8 s) fun bs => ?_).congr
    fun s e => ?_
  · split
    · rename_i s hs
      refine (Accepts.pure s).congr fun t e => ?_
      rw [← ofUtf8?_eq_some_iff, hs, Option.some.injEq, eq_comm (a := t)]
    · rename_i hs
      refine (Accepts.fail _).congr fun t e => ?_
      rw [← ofUtf8?_eq_some_iff, hs]
      simp
  · constructor
    · rintro ⟨_, h, rfl⟩
      exact h
    · intro h
      exact ⟨_, h, rfl⟩

theorem accepts_tag (name : String) {count : Nat} (hcount : count ≤ Put.maxVariants) :
    (tag name count).Accepts m fun i e => Put.tag name i.val count = .raw e := by
  have hbyte : ∀ byte : UInt8, (if h : byte.toNat < count then pure ⟨byte.toNat, h⟩
      else fail (.invalidVariant name byte.toNat count) : Get (Fin count)).Accepts m
        fun i e => byte.toNat = i.val ∧ e = [] := by
    intro byte
    split
    · refine (Accepts.pure _).congr fun i e => ?_
      rw [Fin.ext_iff, eq_comm (a := i.val)]
    · rename_i h
      refine (Accepts.fail _).congr fun i e => ?_
      simp only [false_iff, not_and]
      exact fun hi => absurd i.isLt (hi ▸ h)
  rw [tag, if_neg (Nat.not_lt.2 hcount)]
  refine (accepts_scalar.guard hbyte).congr fun i e => ?_
  rw [Put.tag_eq_raw_iff]
  constructor
  · rintro ⟨byte, rfl, hi⟩
    rw [← hi, UInt8.ofNat_toNat]
    exact ⟨hcount, hi ▸ i.isLt, Scalar.toBytes_byte byte⟩
  · rintro ⟨-, -, rfl⟩
    have hi : i.val < 256 := Nat.lt_of_lt_of_le i.isLt hcount
    exact ⟨_, (Scalar.toBytes_byte _).symm, UInt8.toNat_ofNat_of_lt' hi⟩

/-- The values of a lawful table are read from what is written of them. -/
theorem accepts_enumeration {t : Enumeration α} (h : t.Lawful) :
    t.get.Accepts m fun x e => t.put x = .raw e := by
  unfold Enumeration.get
  refine ((accepts_tag t.name h.count_le).guard
    (W := fun i x => (t.ordinal x).toNat = i.val) fun i => ?_).congr fun x e => ?_
  · rw [h.ofOrdinal?_eq_some]
    refine (Accepts.pure _).congr fun x e => and_congr_left fun _ => ?_
    constructor
    · rintro rfl
      exact h.ordinal_getElem i.val i.isLt
    · intro hx
      have hget := h.getElem?_ordinal x
      rw [hx, List.getElem?_eq_getElem i.isLt] at hget
      exact (Option.some.inj hget).symm
  · constructor
    · rintro ⟨i, he, hx⟩
      rw [Enumeration.put, hx, he]
    · intro he
      exact ⟨⟨_, h.ordinal_lt x⟩, he, rfl⟩

/-- **Values read one by one** are those written one by one. -/
theorem accepts_replicate {g : Get α} {w : α → Put} {P : α → Prop}
    (hg : g.Accepts m fun x e => w x = .raw e ∧ P x) (n : Nat) :
    (replicate g n).Accepts m
      fun xs e => Put.concat (xs.val.map w) = .raw e ∧ ∀ x ∈ xs.val, P x := by
  induction n with
  | zero =>
    refine (Accepts.pure _).congr fun xs e => ?_
    obtain ⟨xs, hlen⟩ := xs
    obtain rfl := List.eq_nil_of_length_eq_zero hlen
    simp [Put.empty_eq_raw_iff]
  | succ n ih =>
    refine (hg.bind fun x => ih.map).congr fun xs e => ?_
    constructor
    · rintro ⟨x, a, b, ⟨ha, hx⟩, ⟨xs, ⟨hb, hxs⟩, rfl⟩, rfl⟩
      exact ⟨Put.append_eq_raw_iff.2 ⟨a, b, ha, hb, rfl⟩, List.forall_mem_cons.2 ⟨hx, hxs⟩⟩
    · rintro ⟨he, hxs⟩
      obtain ⟨_ | ⟨x, xs⟩, hlen⟩ := xs
      · exact absurd hlen (Nat.succ_ne_zero n).symm
      · obtain ⟨a, b, ha, hb, rfl⟩ := Put.append_eq_raw_iff.1 he
        obtain ⟨hx, hxs⟩ := List.forall_mem_cons.1 hxs
        exact ⟨x, a, b, ⟨ha, hx⟩, ⟨⟨xs, Nat.succ.inj hlen⟩, ⟨hb, hxs⟩, rfl⟩, rfl⟩

end Get
end LightWire
