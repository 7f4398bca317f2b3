/-
# Inputs that can be completed

A read that meets the end of its input asks for more bytes.  Whether there are
bytes that it would then accept is another matter: a read that takes what it will
refuse later asks for more in vain.  The reads of the codec refuse as early as
they can, with two exceptions:

| read | asks for more after | completed by |
| --- | --- | --- |
| `raw`, `scalar`, `length` | fewer bytes than it takes | zeros |
| `bool`, `optionTag`, `tag` | no byte | the byte `0` |
| `float` | a part of a pattern | zeros: the exponent is then not all ones |
| reads in a row | a part of the first | the rest of it and the whole of the second |
| | the first and a part of the second | the rest of the second |
| `text` | a part of its bytes | nothing, if they are no UTF-8 already |
| elements that take no room | a part of their count | nothing, if the part is not all zeros |

So where neither of the two occurs, an input is refused for its end exactly if it
goes on, in some way, to a whole value (`end_is_met_where_completable`).
-/

import LightWire.BlockView
import LightWire.Proofs.Cuts

namespace LightWire

namespace Bytes

/-- A longer string can denote more numbers. -/
theorem count_le_count {v w : Nat} (h : v ≤ w) : count v ≤ count w := by
  obtain ⟨k, rfl⟩ := Nat.exists_eq_add_of_le h
  induction k with
  | zero => exact Nat.le_refl _
  | succ k ih =>
    have hstep : count (v + (k + 1)) = 256 * count (v + k) := rfl
    have hbelow := ih (Nat.le_add_right v k)
    omega

theorem ofLittleEndian_zeros (k : Nat) : ofLittleEndian (List.replicate k 0) = 0 := by
  induction k with
  | zero => rfl
  | succ k ih =>
    rw [List.replicate_succ, ofLittleEndian, ih]
    rfl

/-- Zeros after its last byte do not change the number of a byte string. -/
theorem ofLittleEndian_append_zeros (b : Bytes) (k : Nat) :
    ofLittleEndian (b ++ List.replicate k 0) = ofLittleEndian b := by
  rw [ofLittleEndian_append, ofLittleEndian_zeros, Nat.mul_zero, Nat.add_zero]

/-- A byte string filled up with zeros to a width. -/
def zeroFill (w : Nat) (b : Bytes) : Bytes := b ++ List.replicate (w - b.length) 0

theorem length_zeroFill {w : Nat} {b : Bytes} (h : b.length ≤ w) : (b.zeroFill w).length = w := by
  rw [zeroFill, List.length_append, List.length_replicate]
  omega

end Bytes

namespace Get

variable {α β : Type} {m : Nat}

/-- Where a read meets the end, and where nothing is left at all, the input can go
on so that a value is read to its very end. -/
def Completable (g : Get α) (m : Nat) : Prop :=
  ∀ p b, (g m ⟨p, b⟩).1 = .error .unexpectedEnd ∨ b = [] →
    ∃ t x q, g m ⟨p, b ++ t⟩ = (.ok x, ⟨q, []⟩)

namespace Completable

protected theorem pure (x : α) : (pure x : Get α).Completable m := by
  rintro p b (h | rfl)
  · exact nomatch h
  · exact ⟨[], x, p, rfl⟩

/-- **Reads in a row can be completed when each one can,** whatever the first gives
to the second. -/
protected theorem bind {g : Get α} {f : α → Get β} (hseq : g.Sequential) (hg : g.Completable m)
    (hf : ∀ x, (f x).Completable m) : (g >>= f).Completable m := by
  intro p b h
  -- Once the first read has its value, the second one is completed from there.
  have hgo : ∀ t x c, g m ⟨p, b ++ t⟩ = (.ok x, c) →
      (f x m c).1 = .error .unexpectedEnd ∨ c.rest = [] →
        ∃ t y q, (g >>= f) m ⟨p, b ++ t⟩ = (.ok y, ⟨q, []⟩) := by
    intro t x c hx hc
    obtain ⟨t', y, q, hy⟩ := hf x c.position c.rest hc
    have hmore : g m ⟨p, b ++ t ++ t'⟩ = (.ok x, c.extend t') := hseq.apply_extend hx nofun t'
    refine ⟨t ++ t', y, q, ?_⟩
    rw [← List.append_assoc, bind_apply, hmore]
    exact hy
  rw [bind_apply] at h
  rcases hr : g m ⟨p, b⟩ with ⟨e | x, c⟩
  · have hfirst : (g m ⟨p, b⟩).1 = .error .unexpectedEnd ∨ b = [] := by
      rw [hr] at h ⊢
      exact h.imp (fun he => congrArg _ (Except.error.inj he)) id
    obtain ⟨t, x, q, hx⟩ := hg p b hfirst
    exact hgo t x _ hx (.inr rfl)
  · have hsecond : (f x m c).1 = .error .unexpectedEnd ∨ c.rest = [] := by
      rw [hr] at h
      refine h.imp_right fun hb => ?_
      obtain ⟨k, -, hc⟩ := hseq.exists_advance m ⟨p, b⟩
      obtain rfl : c = Cursor.advance ⟨p, b⟩ k := by rw [← hc, hr]
      rw [hb, Cursor.advance, List.drop_nil]
    refine hgo [] x c ?_ hsecond
    rwa [List.append_nil]

end Completable

/-! ### Single reads -/

/-- Bytes meet the end only when fewer are left. -/
theorem size_lt_of_raw {n : Nat} {c : Cursor} (h : (raw n m c).1 = .error .unexpectedEnd) :
    c.size < n := by
  refine Nat.lt_of_not_le fun hn => ?_
  rw [raw, ofCursor, Cursor.take_of_le hn] at h
  exact nomatch h

theorem completable_raw (n : Nat) : (raw n).Completable m := by
  intro p b h
  have hle : b.length ≤ n := by
    rcases h with h | rfl
    · exact Nat.le_of_lt (size_lt_of_raw h)
    · exact Nat.zero_le n
  have hlen : (b.zeroFill n).length = n := Bytes.length_zeroFill hle
  refine ⟨List.replicate (n - b.length) 0, ⟨(b.zeroFill n).toArray, hlen⟩, p + n, ?_⟩
  refine (accepts_raw n _ _ _ _).2 ⟨b.zeroFill n, [], rfl, (List.append_nil _).symm, ?_⟩
  rw [hlen]

theorem completable_scalar [Scalar α] : (scalar : Get α).Completable m := by
  rw [scalar_eq_bind]
  exact .bind (.raw _) (completable_raw _) fun _ => .pure _

/-- **A scalar that is judged when it is read can be completed by zeros,** if zeros
at its end are never refused. -/
theorem completable_judged [Scalar α] {f : α → Get β}
    (hjudge : ∀ x c, (f x m c).1 ≠ .error .unexpectedEnd)
    (hzeros : ∀ b : Bytes, b.length < Scalar.size α →
      ∃ y, ∀ c, f (Scalar.ofBytes (b.zeroFill (Scalar.size α))) m c = (.ok y, c)) :
    (scalar >>= f).Completable m := by
  intro p b h
  have hlt : b.length < Scalar.size α := by
    rcases h with h | rfl
    · -- The end was met by the scalar, for its judgement takes nothing.
      rcases bind_eq_error_iff.1 h with h | ⟨x, c, -, h⟩
      · rw [scalar_eq_bind] at h
        rcases bind_eq_error_iff.1 h with h | ⟨_, _, -, h⟩
        · exact size_lt_of_raw h
        · exact nomatch h
      · exact absurd h (hjudge x c)
    · exact (Scalar.width α).bytes_pos
  obtain ⟨y, hy⟩ := hzeros b hlt
  have hlen := Bytes.length_zeroFill (Nat.le_of_lt hlt)
  have hread : (scalar : Get α) m ⟨p, b ++ List.replicate (Scalar.size α - b.length) 0⟩ =
      (.ok (Scalar.ofBytes (b.zeroFill (Scalar.size α))), ⟨p + Scalar.size α, []⟩) :=
    (accepts_scalar _ _ _ _).2 ⟨b.zeroFill (Scalar.size α), [], (Scalar.toBytes_ofBytes hlen).symm,
      (List.append_nil _).symm, by rw [hlen]⟩
  refine ⟨List.replicate (Scalar.size α - b.length) 0, y, p + Scalar.size α, ?_⟩
  rw [bind_apply, hread]
  exact hy _

/-- The only part of a byte is no byte. -/
theorem ofBytes_zeroFill_byte {b : Bytes} (h : b.length < Scalar.size UInt8) :
    (Scalar.ofBytes (b.zeroFill (Scalar.size UInt8)) : UInt8) = 0 := by
  obtain rfl : b = [] := List.eq_nil_of_length_eq_zero (Nat.lt_one_iff.1 h)
  rfl

theorem completable_flag (invalid : UInt8 → WireError) (h : ∀ x, invalid x ≠ .unexpectedEnd) :
    (flag invalid).Completable m := by
  refine completable_judged (fun x c hend => ?_) fun b hb => ⟨false, fun c => ?_⟩
  · split at hend
    · exact nomatch hend
    · split at hend
      · exact nomatch hend
      · exact h x (Except.error.inj hend)
  · rw [ofBytes_zeroFill_byte hb]
    rfl

/-- A part of a pattern that is filled up with zeros is below the pattern of
infinity: the last byte holds the sign and the upper bits of the exponent. -/
theorem isNaN_zeroFill {p : Precision} {b : Bytes} (h : b.length < Scalar.size (FloatBits p)) :
    (Scalar.ofBytes (b.zeroFill (Scalar.size (FloatBits p))) : FloatBits p).isNaN = false := by
  have hlen := Bytes.length_zeroFill (Nat.le_of_lt h)
  have hfits := Bytes.ofLittleEndian_lt (b.zeroFill (Scalar.size (FloatBits p)))
  rw [hlen] at hfits
  have hword : (Scalar.ofBytes (b.zeroFill (Scalar.size (FloatBits p))) : FloatBits p).word.toNat =
      Bytes.ofLittleEndian b :=
    (Width.toNat_ofNat hfits).trans (Bytes.ofLittleEndian_append_zeros b _)
  have hsmall : Bytes.ofLittleEndian b < p.infinity := by
    refine Nat.lt_of_lt_of_le (Bytes.ofLittleEndian_lt b) ?_
    cases p with
    | single => exact Nat.le_trans (Bytes.count_le_count (Nat.le_of_lt_succ h)) (by decide)
    | double => exact Nat.le_trans (Bytes.count_le_count (Nat.le_of_lt_succ h)) (by decide)
  have hbelow : Bytes.ofLittleEndian b % p.sign ≤ p.infinity :=
    Nat.le_trans (Nat.mod_le _ _) (Nat.le_of_lt hsmall)
  rw [FloatBits.isNaN, hword]
  exact decide_eq_false (Nat.not_lt.2 hbelow)

theorem completable_float (p : Precision) : (float p).Completable m := by
  refine completable_judged (fun x c hend => ?_) fun b hb =>
    ⟨Scalar.ofBytes (b.zeroFill (Scalar.size (FloatBits p))), fun c => ?_⟩
  · split at hend
    · exact nomatch Except.error.inj hend
    · exact nomatch hend
  · rw [isNaN_zeroFill hb, if_neg Bool.false_ne_true]
    rfl

/-- Under the largest limit no count is refused. -/
theorem completable_length : length.Completable Put.maxLength := by
  rw [length_eq_bind]
  refine .bind sequential_scalar completable_scalar fun word => ?_
  have hfits : ¬Put.maxLength < word.toNat := Nat.not_lt.2 (Nat.le_of_lt_succ word.toNat_lt)
  rintro p b (h | rfl)
  · rw [within, if_neg hfits] at h
    exact nomatch h
  · refine ⟨[], word.toNat, p, ?_⟩
    rw [within, if_neg hfits]
    rfl

/-- The first variant completes a tag. -/
theorem completable_tag (name : String) {count : Nat} (pos : 0 < count)
    (hcount : count ≤ Put.maxVariants) : (tag name count).Completable m := by
  rw [tag, if_neg (Nat.not_lt.2 hcount)]
  refine completable_judged (fun x c hend => ?_) fun b hb => ⟨⟨0, pos⟩, fun c => ?_⟩
  · by_cases hx : x.toNat < count
    · rw [dif_pos hx] at hend
      cases hend
    · rw [dif_neg hx] at hend
      cases hend
  · rw [ofBytes_zeroFill_byte hb]
    have hzero : (0 : UInt8).toNat < count := pos
    rw [dif_pos hzero]
    rfl

theorem completable_enumeration {t : Enumeration α} (h : t.Lawful) : t.get.Completable m := by
  refine .bind (sequential_tag t.name t.count) (completable_tag t.name h.count_pos h.count_le)
    fun i => ?_
  rw [h.ofOrdinal?_eq_some]
  exact .pure _

theorem completable_replicate {g : Get α} (hseq : g.Sequential) (hg : g.Completable m) (n : Nat) :
    (replicate g n).Completable m := by
  induction n with
  | zero => exact .pure _
  | succ n ih =>
    exact .bind hseq hg fun _ => .bind (sequential_replicate hseq n) ih fun _ => .pure _

end Get

namespace Schema

variable {α : Type}

/-- Neither a text nor a sequence of elements that take no room occurs in a schema.
What is refused of its values is then refused as soon as it is read. -/
def refusesPromptly {o : Ownership} : {α : Type} → Schema o α → Bool
  | _, unit => true
  | _, scalar => true
  | _, bool => true
  | _, float _ => true
  | _, text => false
  | _, raw _ => true
  | _, enumeration _ _ => true
  | _, option s => s.refusesPromptly
  | _, seq s => !s.zeroSized && s.refusesPromptly
  | _, array _ s => s.refusesPromptly
  | _, pair s t => s.refusesPromptly && t.refusesPromptly
  | _, variants (n := n) _ _ _ payload =>
    (List.finRange n).all fun i => (payload i).refusesPromptly
  | _, iso _ s => s.refusesPromptly
  | _, ref _ s => s.refusesPromptly

/-- Paths, approvals, lists of signatures and nested lists of scalars are among
these schemas; whole views are not, for they announce accounts by name. -/
example : (Merkle.Path.schema : Schema .owned _).refusesPromptly = true ∧
    (Approval.schema : Schema .owned _).refusesPromptly = true ∧
    (seq (option Signature.schema) : Schema .owned _).refusesPromptly = true ∧
    (seq (seq (pair scalar (pair bool (float .double)))) :
      Schema .owned (List (List (UInt64 × Bool × _)))).refusesPromptly = true ∧
    (BlockView.schema : Schema .owned _).refusesPromptly = false :=
  ⟨rfl, rfl, rfl, rfl, rfl⟩

/-- **A value of such a schema can be completed wherever its input ends.** -/
theorem completable_decode {s : Schema .owned α} (h : s.refusesPromptly = true) :
    s.decode.Completable Put.maxLength := by
  induction s with
  | unit => exact .pure ()
  | scalar => exact Get.completable_scalar
  | bool => exact Get.completable_flag _ nofun
  | float p => exact Get.completable_float p
  | text => exact absurd h Bool.false_ne_true
  | raw n => exact Get.completable_raw n
  | enumeration t ht => exact Get.completable_enumeration ht
  | option s ih =>
    refine .bind (Get.sequential_flag _) (Get.completable_flag _ nofun) fun present => ?_
    cases present with
    | false => exact .pure none
    | true => exact .bind s.sequential_decode (ih h) fun _ => .pure _
  | seq s ih =>
    obtain ⟨hroom, hs⟩ := Bool.and_eq_true_iff.1 h
    have hroom : s.zeroSized = false := (Bool.not_eq_true' _).mp hroom
    refine .bind Get.sequential_length Get.completable_length fun n => ?_
    rw [hroom, Bool.false_and, if_neg Bool.false_ne_true]
    exact .bind (Get.sequential_replicate s.sequential_decode n)
      (Get.completable_replicate s.sequential_decode (ih hs) n) fun _ => .pure _
  | array n s ih =>
    exact .bind (Get.sequential_replicate s.sequential_decode n)
      (Get.completable_replicate s.sequential_decode (ih h) n) fun _ => .pure _
  | pair s t ihs iht =>
    obtain ⟨hs, ht⟩ := Bool.and_eq_true_iff.1 h
    exact .bind s.sequential_decode (ihs hs) fun _ =>
      .bind t.sequential_decode (iht ht) fun _ => .pure _
  | variants name pos le payload ih =>
    have hpayload : ∀ i, (payload i).refusesPromptly = true := fun i =>
      List.all_eq_true.1 h i (List.mem_finRange i)
    exact .bind (Get.sequential_tag name _) (Get.completable_tag name pos le) fun i =>
      .bind (payload i).sequential_decode (ih i (hpayload i)) fun _ => .pure _
  | iso f s ih => exact .bind s.sequential_decode (ih h) fun _ => .pure _
  | ref hb s ih => exact absurd hb Ownership.noConfusion

/-- What ends inside a value is refused for its end. -/
theorem decode_of_ofBytes_append {s : Schema .owned α} {m : Nat} {b t : Bytes} {x : α}
    (ht : t ≠ []) (h : s.ofBytes ⟨m, false⟩ (b ++ t) = .ok x) :
    (s.decode m (.ofBytes b)).1 = .error .unexpectedEnd := by
  have hcut : b.length < (b ++ t).length := by
    rw [List.length_append]
    exact Nat.lt_add_of_pos_right (List.length_pos_iff.2 ht)
  obtain ⟨c, hc⟩ := decode_cut_off (ofBytes_strict_iff.1 h) hcut
  rw [List.take_left] at hc
  rw [hc]

/-- **An input is refused for its end exactly if it can be completed.**  Under the
largest limit, and where no text and no sequence of elements that take no room
occurs, a value meets the end of an input exactly when some bytes, at least one,
make the input a value and nothing else. -/
theorem end_is_met_where_completable (s : Schema .owned α) (h : s.refusesPromptly = true)
    (b : Bytes) (allow : Bool) :
    ((Decoder.ofBytes ⟨Put.maxLength, allow⟩ b).run s.decode).1 = .error .unexpectedEnd ↔
      ∃ t, t ≠ [] ∧ ∃ x, s.ofBytes {} (b ++ t) = .ok x := by
  show (s.decode Put.maxLength (.ofBytes b)).1 = .error .unexpectedEnd ↔ _
  constructor
  · intro hend
    obtain ⟨t, x, q, hx⟩ := completable_decode h 0 b (.inl hend)
    have hne : t ≠ [] := by
      rintro rfl
      rw [List.append_nil] at hx
      exact nomatch (congrArg Prod.fst hx).symm.trans hend
    have hwhole : s.ofBytes {} (b ++ t) = (⟨{}, ⟨q, []⟩⟩ : Decoder).finish.map fun _ => x :=
      Get.whole_of_ok hx
    exact ⟨t, hne, x, hwhole⟩
  · rintro ⟨t, ht, x, hx⟩
    exact decode_of_ofBytes_append ht hx

/-- A list of units whose count is cut off after a byte `1` meets the end, but no
bytes complete it: elements that take no room are rightly left out. -/
example : ((seq unit).decode Put.maxLength (.ofBytes [1, 0, 0])).1 = .error .unexpectedEnd ∧
    ¬∃ t x, (seq unit).ofBytes {} ([1, 0, 0] ++ t) = .ok x := by
  refine ⟨rfl, ?_⟩
  rintro ⟨t, x, hx⟩
  obtain ⟨hwritten, -⟩ := ofBytes_strict_iff.1 hx
  cases x with
  | nil => exact nomatch congrArg (fun p : Put => p.bytes.head?) hwritten
  | cons u us => exact Put.fail_ne_raw _ _ hwritten

/-- The hypothesis is satisfiable: a list of one list of one triple is cut off in
the exponent of its number, and a path of one item before its side. -/
theorem end_is_met_in_number_and_side :
    (∃ t, t ≠ [] ∧ ∃ x, (seq (seq (pair scalar (pair bool (float .double)))) :
        Schema .owned (List (List (UInt64 × Bool × _)))).ofBytes {}
      ([1, 0, 0, 0, 1, 0, 0, 0, 7, 0, 0, 0, 0, 0, 0, 0, 1, 0, 0, 0, 0, 0, 0, 0xf8] ++ t) = .ok x) ∧
    ((Decoder.ofBytes ⟨Put.maxLength, true⟩ ([1, 0, 0, 0] ++ List.replicate 32 9)).run
      Merkle.Path.schema.decode).1 = .error .unexpectedEnd :=
  ⟨(end_is_met_where_completable (seq (seq (pair scalar (pair bool (float .double))))) rfl
      [1, 0, 0, 0, 1, 0, 0, 0, 7, 0, 0, 0, 0, 0, 0, 0, 1, 0, 0, 0, 0, 0, 0, 0xf8] false).1 rfl,
    (end_is_met_where_completable Merkle.Path.schema rfl _ true).2
      ⟨[1], nofun, [⟨⟨Vector.replicate 32 9⟩, .right⟩], rfl⟩⟩

end Schema
end LightWire
