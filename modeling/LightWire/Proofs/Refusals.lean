/-
# Causes for which an input is refused

An input is refused for one of the causes below, and each tells something of the
input, of the options or of the schema:

| cause | what it tells |
| --- | --- |
| `unexpectedEnd` | |
| `invalidUtf8`, `nanFloat`, `zeroSizedCollection` | |
| `invalidBool x`, `invalidOption x` | `x` is a byte of the input and at least `2` |
| `invalidVariant name i n` | an enumeration in the schema has this name and `n` variants; `i` is a byte of the input and at least `n` |
| `lengthLimit n m` | `m` is the limit, `n` is above it and fits four bytes |
| `trailingBytes k r` | the input has `k + r` bytes, `r` is above zero, and none may follow |

No other cause is one of reading.  Three reads of the codec end with a branch for
what never happens: a hash of another size than its bytes, an array of another
length than was read, an ordinal of neither variant.  They are stated with this
branch left open, and each is the read of its schema whatever the branch does
(`Hash.decode_eq_getOr`, `decode_eq_getArrayOr`, `decode_eq_getEitherOr`).
-/

import LightWire.Hash
import LightWire.Proofs.Cuts

namespace LightWire

/-- The name and the count of variants of each enumeration in a schema. -/
def Schema.tables {o : Ownership} : {α : Type} → Schema o α → List (String × Nat)
  | _, unit => []
  | _, scalar => []
  | _, bool => []
  | _, float _ => []
  | _, text => []
  | _, raw _ => []
  | _, enumeration e _ => [(e.name, e.count)]
  | _, option s => s.tables
  | _, seq s => s.tables
  | _, array _ s => s.tables
  | _, pair s t => s.tables ++ t.tables
  | _, variants (n := n) name _ _ payload =>
    (name, n) :: (List.finRange n).flatMap fun i => (payload i).tables
  | _, iso _ s => s.tables
  | _, ref _ s => s.tables

/-- The causes for which a value is refused, by the enumerations in its schema, the
limit on counts and the bytes that the value was to be read from. -/
inductive Refusal (tables : List (String × Nat)) (maxLen : Nat) (b : Bytes) : WireError → Prop
  /-- The bytes end inside the value. -/
  | unexpectedEnd : Refusal tables maxLen b .unexpectedEnd
  /-- The bytes of a text are not UTF-8. -/
  | invalidUtf8 : Refusal tables maxLen b .invalidUtf8
  /-- A pattern stands for no number. -/
  | nanFloat : Refusal tables maxLen b .nanFloat
  /-- Elements that take no room are counted. -/
  | zeroSizedCollection : Refusal tables maxLen b .zeroSizedCollection
  /-- A byte is no truth value. -/
  | invalidBool {x : UInt8} (mem : x ∈ b) (above : 2 ≤ x.toNat) :
      Refusal tables maxLen b (.invalidBool x)
  /-- A byte does not say whether an option holds a value. -/
  | invalidOption {x : UInt8} (mem : x ∈ b) (above : 2 ≤ x.toNat) :
      Refusal tables maxLen b (.invalidOption x)
  /-- A byte is no ordinal of its enumeration. -/
  | invalidVariant {name : String} {n : Nat} {x : UInt8} (table : (name, n) ∈ tables)
      (mem : x ∈ b) (beyond : n ≤ x.toNat) :
      Refusal tables maxLen b (.invalidVariant name x.toNat n)
  /-- A count is above the limit. -/
  | lengthLimit {n : Nat} (above : maxLen < n) (fits : n ≤ Put.maxLength) :
      Refusal tables maxLen b (.lengthLimit n maxLen)

/-- What is refused of some of the bytes is refused of them all. -/
theorem Refusal.mono {tables : List (String × Nat)} {m : Nat} {b b' : Bytes} {e : WireError}
    (h : Refusal tables m b e) (hb : b ⊆ b') : Refusal tables m b' e := by
  cases h with
  | unexpectedEnd => exact .unexpectedEnd
  | invalidUtf8 => exact .invalidUtf8
  | nanFloat => exact .nanFloat
  | zeroSizedCollection => exact .zeroSizedCollection
  | invalidBool mem above => exact .invalidBool (hb mem) above
  | invalidOption mem above => exact .invalidOption (hb mem) above
  | invalidVariant table mem beyond => exact .invalidVariant table (hb mem) beyond
  | lengthLimit above fits => exact .lengthLimit above fits

namespace Get

variable {α β : Type} {tables : List (String × Nat)} {m : Nat}

/-- Whatever a read refuses, it refuses for one of the causes. -/
def Refuses (g : Get α) (tables : List (String × Nat)) (m : Nat) : Prop :=
  ∀ c e, (g m c).1 = .error e → Refusal tables m c.rest e

namespace Refuses

protected theorem pure (x : α) : (pure x : Get α).Refuses tables m := nofun

protected theorem fail {e : WireError} (h : ∀ b, Refusal tables m b e) :
    (Get.fail e : Get α).Refuses tables m := by
  intro c e' he
  obtain rfl : e = e' := Except.error.inj he
  exact h c.rest

protected theorem ite {p : Prop} [Decidable p] {g g' : Get α} (hg : g.Refuses tables m)
    (hg' : g'.Refuses tables m) : (if p then g else g').Refuses tables m := by
  split
  · exact hg
  · exact hg'

/-- **Reads in a row refuse for the causes of each,** since the bytes of the second
are among those of the first. -/
protected theorem bind {g : Get α} {f : α → Get β} (hseq : g.Sequential)
    (hg : g.Refuses tables m) (hf : ∀ x, (f x).Refuses tables m) :
    (g >>= f).Refuses tables m := by
  intro c e h
  rcases bind_eq_error_iff.1 h with h | ⟨x, c', hr, h⟩
  · exact hg c e h
  · obtain ⟨k, -, hc⟩ := hseq.exists_advance m c
    obtain rfl : c' = c.advance k := by rw [← hc, hr]
    exact (hf x _ e h).mono (List.drop_subset k c.rest)

end Refuses

theorem refuses_raw (n : Nat) : (raw n).Refuses tables m := by
  intro c e h
  unfold raw ofCursor at h
  by_cases hn : n ≤ c.size
  · rw [Cursor.take_of_le hn] at h
    exact nomatch h
  · rw [Cursor.take_of_lt (Nat.not_le.1 hn)] at h
    obtain rfl := Except.error.inj h
    exact .unexpectedEnd

theorem refuses_scalar [Scalar α] : (scalar : Get α).Refuses tables m := by
  rw [scalar_eq_bind]
  exact .bind (.raw _) (refuses_raw _) fun _ => .pure _

/-- What is refused after a byte was read is refused of this byte and those after
it. -/
theorem refuses_byte {f : UInt8 → Get α}
    (hf : ∀ x c e, (f x m c).1 = .error e → Refusal tables m (x :: c.rest) e) :
    (scalar >>= f).Refuses tables m := by
  rintro ⟨p, b⟩ e h
  rcases bind_eq_error_iff.1 h with h | ⟨x, c', hr, h⟩
  · exact refuses_scalar _ e h
  · obtain ⟨byte, rest, hbyte, rfl, rfl⟩ := (accepts_scalar p b x c').1 hr
    rw [Scalar.toBytes_byte] at hbyte
    subst hbyte
    exact hf x _ e h

/-- A byte that is neither `0` nor `1` is at least `2`. -/
theorem refuses_flag {invalid : UInt8 → WireError}
    (h : ∀ {x b}, x ∈ b → 2 ≤ x.toNat → Refusal tables m b (invalid x)) :
    (flag invalid).Refuses tables m := by
  refine refuses_byte fun x c e he => ?_
  split at he
  · exact nomatch he
  · rename_i hne_zero
    split at he
    · exact nomatch he
    · rename_i hne_one
      obtain rfl := Except.error.inj he
      have hzero : x.toNat ≠ 0 := fun hx => hne_zero (UInt8.toNat_inj.1 hx)
      have hone : x.toNat ≠ 1 := fun hx => hne_one (UInt8.toNat_inj.1 hx)
      exact h (List.mem_cons_self ..) (by omega)

theorem refuses_float (p : Precision) : (float p).Refuses tables m :=
  .bind sequential_scalar refuses_scalar fun x => .ite (.fail fun _ => .nanFloat) (.pure x)

theorem refuses_length : length.Refuses tables m := by
  rw [length_eq_bind]
  refine .bind sequential_scalar refuses_scalar fun word c e h => ?_
  unfold within at h
  split at h
  · obtain rfl := Except.error.inj h
    exact .lengthLimit ‹_› (Nat.le_of_lt_succ word.toNat_lt)
  · exact nomatch h

theorem refuses_sized : sized.Refuses tables m :=
  .bind sequential_length refuses_length fun n => .bind (.raw n) (refuses_raw n) fun _ => .pure _

theorem refuses_text : text.Refuses tables m := by
  refine .bind sequential_sized refuses_sized fun bs => ?_
  split
  · exact .pure _
  · exact .fail fun _ => .invalidUtf8

/-- An ordinal is refused only when it is beyond the variants: one byte tells them
apart. -/
theorem refuses_tag {name : String} {count : Nat} (hcount : count ≤ Put.maxVariants)
    (htable : (name, count) ∈ tables) : (tag name count).Refuses tables m := by
  rw [tag, if_neg (Nat.not_lt.2 hcount)]
  refine refuses_byte fun x c e he => ?_
  split at he
  · cases he
  · rename_i hx
    obtain rfl := Except.error.inj he
    exact .invalidVariant htable (List.mem_cons_self ..) (Nat.not_lt.1 hx)

/-- A lawful table refuses no ordinal that its tag gives. -/
theorem refuses_enumeration {t : Enumeration α} (h : t.Lawful)
    (htable : (t.name, t.count) ∈ tables) : t.get.Refuses tables m := by
  refine .bind (sequential_tag t.name t.count) (refuses_tag h.count_le htable) fun i => ?_
  rw [h.ofOrdinal?_eq_some]
  exact .pure _

theorem refuses_replicate {g : Get α} (hseq : g.Sequential) (hg : g.Refuses tables m) (n : Nat) :
    (replicate g n).Refuses tables m := by
  induction n with
  | zero => exact .pure _
  | succ n ih =>
    exact .bind hseq hg fun _ => .bind (sequential_replicate hseq n) ih fun _ => .pure _

end Get

namespace Schema

variable {α β : Type}

/-- **A value of any schema is refused for one of the causes,** under any tables that
its enumerations are among. -/
theorem refuses_decode (s : Schema .owned α) {tables : List (String × Nat)}
    (h : s.tables ⊆ tables) (m : Nat) : s.decode.Refuses tables m := by
  induction s with
  | unit => exact .pure ()
  | scalar => exact Get.refuses_scalar
  | bool => exact Get.refuses_flag .invalidBool
  | float p => exact Get.refuses_float p
  | text => exact Get.refuses_text
  | raw n => exact Get.refuses_raw n
  | enumeration t ht => exact Get.refuses_enumeration ht (h (List.mem_singleton_self _))
  | option s ih =>
    exact .bind (Get.sequential_flag _) (Get.refuses_flag .invalidOption) fun _ =>
      .ite (.bind s.sequential_decode (ih h) fun _ => .pure _) (.pure none)
  | seq s ih =>
    exact .bind Get.sequential_length Get.refuses_length fun n =>
      .ite (.fail fun _ => .zeroSizedCollection)
        (.bind (Get.sequential_replicate s.sequential_decode n)
          (Get.refuses_replicate s.sequential_decode (ih h) n) fun _ => .pure _)
  | array n s ih =>
    exact .bind (Get.sequential_replicate s.sequential_decode n)
      (Get.refuses_replicate s.sequential_decode (ih h) n) fun _ => .pure _
  | pair s t ihs iht =>
    obtain ⟨hs, ht⟩ := List.append_subset.1 h
    exact .bind s.sequential_decode (ihs hs) fun _ =>
      .bind t.sequential_decode (iht ht) fun _ => .pure _
  | @variants name n pos le β payload ih =>
    obtain ⟨hname, hpayload⟩ := List.cons_subset.1 h
    have htables : ∀ i, (payload i).tables ⊆ tables := fun i table hi =>
      hpayload (List.mem_flatMap.2 ⟨i, List.mem_finRange i, hi⟩)
    exact .bind (Get.sequential_tag name n) (Get.refuses_tag le hname) fun i =>
      .bind (payload i).sequential_decode (ih i (htables i)) fun _ => .pure _
  | iso f s ih => exact .bind s.sequential_decode (ih h) fun _ => .pure _
  | ref hb s ih => exact absurd hb Ownership.noConfusion

end Schema

/-- Whatever is refused of an input was refused by the read, or the value ends
before the input does. -/
theorem Get.Sequential.whole_eq_error {α : Type} {g : Get α} (hg : g.Sequential)
    {options : Options} {b : Bytes} {e : WireError} (h : g.whole options b = .error e) :
    (g options.maxLen (.ofBytes b)).1 = .error e ∨
      ∃ k r, e = .trailingBytes k r ∧ 0 < r ∧ k + r = b.length ∧
        options.allowTrailing = false := by
  obtain ⟨r, k, hk, hrun⟩ := hg.exists_seek options.maxLen b 0
  rw [Nat.zero_add] at hrun
  have hfirst : g options.maxLen (.ofBytes b) = (r, .seek b k) := hrun
  cases r with
  | error e' =>
    rw [Get.whole_of_error hfirst] at h
    exact .inl (by rw [hfirst, h])
  | ok x =>
    rw [Get.whole_of_ok hfirst] at h
    by_cases hend : b.drop k = [] ∨ options.allowTrailing = true
    · rw [Decoder.finish_eq_ok_iff.2 hend] at h
      exact nomatch h
    · obtain ⟨hleft, hnot⟩ := not_or.1 hend
      have hstrict : options.allowTrailing = false := Bool.eq_false_iff.2 hnot
      have hpos : 0 < (Cursor.seek b k).size := List.length_pos_iff.2 hleft
      have hwhole : k + (b.drop k).length = b.length := by
        rw [List.length_drop]
        omega
      rw [Decoder.finish_of_pos hstrict hpos] at h
      exact .inr ⟨_, _, (Except.error.inj h).symm, hpos, hwhole, hstrict⟩

namespace Schema

variable {α : Type}

/-- **What is refused is refused for a cause that tells something of the input.**
Whatever is refused of an input is a cause of `Refusal`, or the bytes that follow
the value when none may: at least one, and they and the value are the whole input.
No branch for a hash of another size, an array of another length or an ordinal of
neither variant is ever taken: the reads are the same whatever these branches do.
-/
theorem refusals_are_sound (s : Schema .owned α) :
    (∀ options b e, s.ofBytes options b = .error e →
      Refusal s.tables options.maxLen b e ∨
        ∃ k r, e = .trailingBytes k r ∧ 0 < r ∧ k + r = b.length ∧
          options.allowTrailing = false) ∧
    (∀ otherwise, (Hash.schema : Schema .owned Hash).decode = Hash.getOr otherwise) ∧
    (∀ n otherwise, (array n s).decode = Get.arrayOr n s.decode otherwise) ∧
    (∀ {β γ : Type} (f : Iso γ (α ⊕ β)) (name : String) (t : Schema .owned β) otherwise,
      (iso f (either name s t)).decode =
        Get.eitherOr name (s.decode >>= fun x => pure (f.back (.inl x)))
          (t.decode >>= fun y => pure (f.back (.inr y))) otherwise) := by
  refine ⟨fun options b e h => ?_, Hash.decode_eq_getOr, fun n => s.decode_array n,
    fun f name => s.decode_iso_either f name⟩
  refine (s.sequential_decode.whole_eq_error h).imp (fun hread => ?_) id
  exact s.refuses_decode (List.Subset.refl _) options.maxLen (.ofBytes b) e hread

/-- The hypothesis is satisfiable: an option of a truth value or a text, with an
ordinal of neither and with a text that is longer than the limit. -/
theorem refusals_are_sound_option :
    (option (either "Side" bool text)).ofBytes ⟨9, false⟩ [1, 7] =
      .error (.invalidVariant "Side" 7 2) ∧
    Refusal [("Side", 2)] 9 [1, 7] (.invalidVariant "Side" 7 2) ∧
    (option (either "Side" bool text)).ofBytes ⟨9, false⟩ [1, 1, 10, 0, 0, 0] =
      .error (.lengthLimit 10 9) ∧
    Refusal [("Side", 2)] 9 [1, 1, 10, 0, 0, 0] (.lengthLimit 10 9) := by
  have hsound := (refusals_are_sound (option (either "Side" bool text))).1 ⟨9, false⟩
  have hvariant := hsound [1, 7] (.invalidVariant "Side" 7 2) rfl
  have hlimit := hsound [1, 1, 10, 0, 0, 0] (.lengthLimit 10 9) rfl
  exact ⟨rfl, hvariant.resolve_right nofun, rfl, hlimit.resolve_right nofun⟩

end Schema
end LightWire
