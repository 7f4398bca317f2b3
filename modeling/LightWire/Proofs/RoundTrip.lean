/-
# Writing and reading undo each other

A value is read exactly from what is written of it.  Under a limit on counts, a
value is read where the input goes on with its bytes, and no count in it is above
the limit; nothing else is read as that value, and reading it takes these bytes
and no more (`accepts_decode`).  Both directions follow:

| from | follows | |
| --- | --- | --- |
| `toBytes x = e` | reading at `e` gives `x`, whatever follows | `run_decode_of_toBytes` |
| reading gives `x` | `toBytes x` is the bytes taken | `decoding_is_canonical` |

The counts in a value are those that a reader checks against its limit: the
bytes of a text and the elements of a sequence, in the order of the bytes.
-/

import LightWire.Proofs.Acceptance
import LightWire.Proofs.Stepwise

namespace LightWire

/-- An input is at its end when nothing is left, or what is left is allowed. -/
theorem Decoder.finish_eq_ok_iff {d : Decoder} :
    d.finish = .ok () ↔ d.cursor.rest = [] ∨ d.options.allowTrailing = true := by
  rw [← List.length_eq_zero_iff]
  unfold finish remaining Cursor.size
  split
  · simp only [*]
  · simp only [reduceCtorEq, *]

/-- A decoder does what the read does at its cursor, and keeps its options. -/
theorem Decoder.run_eq_iff {α : Type} {g : Get α} {d d' : Decoder} {r : Except WireError α} :
    d.run g = (r, d') ↔
      g d.options.maxLen d.cursor = (r, d'.cursor) ∧ d' = ⟨d.options, d'.cursor⟩ := by
  unfold run
  constructor
  · intro h
    obtain ⟨rfl, rfl⟩ := Prod.mk.inj h
    exact ⟨rfl, rfl⟩
  · rintro ⟨hread, hd'⟩
    rw [hread, hd']

/-- A whole input is read when a value is read at its beginning and it is then at
its end. -/
theorem Get.whole_eq_ok_iff {α : Type} {g : Get α} {options : Options} {b : Bytes} {x : α} :
    g.whole options b = .ok x ↔
      ∃ d, (Decoder.ofBytes options b).run g = (.ok x, d) ∧ d.finish = .ok () := by
  unfold whole
  rcases (Decoder.ofBytes options b).run g with ⟨_ | y, d⟩
  · simp
  · simp only [Prod.mk.injEq, Except.ok.injEq]
    constructor
    · intro h
      cases hd : d.finish with
      | error f =>
        rw [hd] at h
        exact nomatch h
      | ok u =>
        rw [hd] at h
        exact ⟨d, ⟨Except.ok.inj h, rfl⟩, hd⟩
    · rintro ⟨_, ⟨rfl, rfl⟩, hd⟩
      rw [hd]
      rfl

namespace Schema

variable {α : Type}

/-- The counts in a value that stand before what they count. -/
def lengths {o : Ownership} : {α : Type} → Schema o α → α → List Nat
  | _, unit, _ => []
  | _, scalar, _ => []
  | _, bool, _ => []
  | _, float _, _ => []
  | _, text, s => [(Put.utf8 s).length]
  | _, raw _, _ => []
  | _, enumeration _ _, _ => []
  | _, option _, none => []
  | _, option s, some x => s.lengths x
  | _, seq s, xs => xs.length :: xs.flatMap s.lengths
  | _, array _ s, xs => xs.toList.flatMap s.lengths
  | _, pair s t, (x, y) => s.lengths x ++ t.lengths y
  | _, variants _ _ _ payload, ⟨i, x⟩ => (payload i).lengths x
  | _, iso f s, x => s.lengths (f.forth x)
  | _, ref _ s, x => s.lengths x

/-- A value with its bytes, all counts in it within a limit. -/
def Written (s : Schema .owned α) (m : Nat) (x : α) (e : Bytes) : Prop :=
  s.encode x = .raw e ∧ ∀ n ∈ s.lengths x, n ≤ m

/-- The counts in the elements of a list are within a limit when those in each
element are. -/
theorem forall_mem_lengths {o : Ownership} {s : Schema o α} {m : Nat} {xs : List α} :
    (∀ n ∈ xs.flatMap s.lengths, n ≤ m) ↔ ∀ x ∈ xs, ∀ n ∈ s.lengths x, n ≤ m := by
  simp only [List.mem_flatMap]
  constructor
  · intro h x hx n hn
    exact h n ⟨x, hx, hn⟩
  · rintro h n ⟨x, hx, hn⟩
    exact h x hx n hn

/-- An option is read from its presence byte and from the value that it announces. -/
theorem accepts_option {s : Schema .owned α} {m : Nat} (hs : s.decode.Accepts m (s.Written m)) :
    (option s).decode.Accepts m ((option s).Written m) := by
  have hvalue : ∀ present : Bool, (if present then s.decode >>= fun x => pure (some x)
      else pure none : Get (Option α)).Accepts m fun z e =>
        if present then ∃ x, s.Written m x e ∧ z = some x else z = none ∧ e = [] := by
    intro present
    cases present with
    | false => exact Get.Accepts.pure none
    | true => exact hs.map
  refine ((Get.accepts_flag _).bind hvalue).congr fun z e => ?_
  constructor
  · rintro ⟨_ | _, a, b, ha, hz, rfl⟩
    · obtain ⟨rfl, rfl⟩ := hz
      exact ⟨(List.append_nil a).symm ▸ ha, List.forall_mem_nil _⟩
    · obtain ⟨x, ⟨hb, hx⟩, rfl⟩ := hz
      exact ⟨Put.append_eq_raw_iff.2 ⟨a, b, ha, hb, rfl⟩, hx⟩
  · rintro ⟨he, hz⟩
    cases z with
    | none => exact ⟨false, e, [], he, ⟨rfl, rfl⟩, (List.append_nil e).symm⟩
    | some x =>
      obtain ⟨a, b, ha, hb, rfl⟩ := Put.append_eq_raw_iff.1 he
      exact ⟨true, a, b, ha, ⟨x, ⟨hb, hz⟩, rfl⟩, rfl⟩

/-- A sequence is read from its count and its elements; elements that take no room
are refused after the count. -/
theorem accepts_seq {s : Schema .owned α} {m : Nat} (hs : s.decode.Accepts m (s.Written m)) :
    (seq s).decode.Accepts m ((seq s).Written m) := by
  have helements : ∀ n : Nat, (if s.zeroSized && n != 0 then Get.fail .zeroSizedCollection
      else Get.replicate s.decode n >>= fun xs => pure xs.val).Accepts m fun xs e =>
        xs.length = n ∧ (s.zeroSized && n != 0) = false ∧
          Put.concat (xs.map s.encode) = .raw e ∧ ∀ n ∈ xs.flatMap s.lengths, n ≤ m := by
    intro n
    split
    · refine (Get.Accepts.fail _).congr fun xs e => ?_
      simp [*]
    · rename_i hz
      refine (Get.accepts_replicate hs n).map.congr fun xs e => ?_
      rw [forall_mem_lengths]
      constructor
      · rintro ⟨⟨ys, rfl⟩, h, rfl⟩
        exact ⟨rfl, Bool.not_eq_true _ ▸ hz, h⟩
      · rintro ⟨rfl, -, h⟩
        exact ⟨⟨xs, rfl⟩, h, rfl⟩
  refine (Get.accepts_length.bind helements).congr fun xs e => ?_
  -- The writer refuses before the count and the reader after it, but the same lists.
  have hguard : (s.zeroSized && !xs.isEmpty) = (s.zeroSized && xs.length != 0) := by
    cases xs <;> rfl
  rw [Written, encode, lengths, hguard]
  constructor
  · rintro ⟨_, a, b, ⟨hn, ha⟩, ⟨rfl, hz, hb, hxs⟩, rfl⟩
    rw [hz]
    exact ⟨Put.append_eq_raw_iff.2 ⟨a, b, ha, hb, rfl⟩, List.forall_mem_cons.2 ⟨hn, hxs⟩⟩
  · rintro ⟨he, hxs⟩
    obtain ⟨hn, hxs⟩ := List.forall_mem_cons.1 hxs
    cases hz : s.zeroSized && xs.length != 0 with
    | true =>
      rw [hz] at he
      exact absurd he (Put.fail_ne_raw _ _)
    | false =>
      rw [hz] at he
      obtain ⟨a, b, ha, hb, rfl⟩ := Put.append_eq_raw_iff.1 he
      exact ⟨_, a, b, ⟨hn, ha⟩, ⟨rfl, hz, hb, hxs⟩, rfl⟩

/-- An array is read from its elements. -/
theorem accepts_array {s : Schema .owned α} {m : Nat} (hs : s.decode.Accepts m (s.Written m))
    (n : Nat) : (array n s).decode.Accepts m ((array n s).Written m) := by
  refine (Get.accepts_replicate hs n).map.congr fun xs e => ?_
  rw [Written, encode, lengths, forall_mem_lengths]
  constructor
  · rintro ⟨ys, h, rfl⟩
    exact h
  · intro h
    exact ⟨⟨xs.toList, xs.length_toList⟩, h, rfl⟩

/-- **A value is read exactly from what is written of it.** -/
theorem accepts_decode (s : Schema .owned α) (m : Nat) : s.decode.Accepts m (s.Written m) := by
  induction s with
  | unit =>
    refine (Get.Accepts.pure ()).congr fun x e => ?_
    simp [Written, encode, lengths, Put.empty_eq_raw_iff]
  | scalar =>
    refine Get.accepts_scalar.congr fun x e => ?_
    simp [Written, encode, lengths, Put.scalar, eq_comm]
  | bool =>
    refine (Get.accepts_flag _).congr fun x e => ?_
    simp [Written, encode, lengths]
  | float p =>
    refine (Get.accepts_float p).congr fun x e => ?_
    simp [Written, encode, lengths]
  | text =>
    refine Get.accepts_text.congr fun x e => ?_
    simp [Written, encode, lengths, and_comm]
  | raw n =>
    refine (Get.accepts_raw n).congr fun x e => ?_
    simp [Written, encode, lengths, eq_comm]
  | enumeration e h =>
    refine (Get.accepts_enumeration h).congr fun x e => ?_
    simp [Written, encode, lengths]
  | option s ih => exact accepts_option ih
  | seq s ih => exact accepts_seq ih
  | array n s ih => exact accepts_array ih n
  | pair s t ihs iht =>
    refine (ihs.bind fun x => iht.map).congr fun z e => ?_
    constructor
    · rintro ⟨x, a, b, ⟨ha, hx⟩, ⟨y, ⟨hb, hy⟩, rfl⟩, rfl⟩
      exact ⟨Put.append_eq_raw_iff.2 ⟨a, b, ha, hb, rfl⟩, List.forall_mem_append.2 ⟨hx, hy⟩⟩
    · rintro ⟨he, hn⟩
      obtain ⟨a, b, ha, hb, rfl⟩ := Put.append_eq_raw_iff.1 he
      obtain ⟨hx, hy⟩ := List.forall_mem_append.1 hn
      exact ⟨z.1, a, b, ⟨ha, hx⟩, ⟨z.2, ⟨hb, hy⟩, rfl⟩, rfl⟩
  | variants name pos le payload ih =>
    refine ((Get.accepts_tag name le).bind fun i => (ih i).map).congr fun z e => ?_
    constructor
    · rintro ⟨i, a, b, ha, ⟨x, ⟨hb, hx⟩, rfl⟩, rfl⟩
      exact ⟨Put.append_eq_raw_iff.2 ⟨a, b, ha, hb, rfl⟩, hx⟩
    · rintro ⟨he, hx⟩
      obtain ⟨a, b, ha, hb, rfl⟩ := Put.append_eq_raw_iff.1 he
      exact ⟨z.1, a, b, ha, ⟨z.2, ⟨hb, hx⟩, rfl⟩, rfl⟩
  | iso f s ih =>
    refine ih.map.congr fun x e => ?_
    constructor
    · rintro ⟨y, h, rfl⟩
      simpa only [Written, encode, lengths, f.forth_back] using h
    · intro h
      exact ⟨f.forth x, h, (f.back_forth x).symm⟩
  | ref h s ih => exact absurd h Ownership.noConfusion

/-! ### Reading at a place and reading a whole input -/

variable {s : Schema .owned α} {options : Options} {x : α}

/-- **A decoder reads a value where the bytes of it come next,** and goes on after
them. -/
theorem run_decode_eq_ok_iff {d d' : Decoder} :
    d.run s.decode = (.ok x, d') ↔ ∃ e rest, s.Written d.options.maxLen x e ∧
      d.cursor.rest = e ++ rest ∧ d' = ⟨d.options, ⟨d.cursor.position + e.length, rest⟩⟩ := by
  obtain ⟨options, p, b⟩ := d
  rw [Decoder.run_eq_iff, s.accepts_decode]
  constructor
  · rintro ⟨⟨e, rest, he, hb, hc⟩, hd'⟩
    exact ⟨e, rest, he, hb, hd'.trans (congrArg (Decoder.mk options) hc)⟩
  · rintro ⟨e, rest, he, hb, rfl⟩
    exact ⟨⟨e, rest, he, hb, rfl⟩, rfl⟩

/-- A value that is given out is read back from any place where its bytes stand. -/
theorem run_decode_of_toBytes {e : Bytes} (h : s.toBytes x = .ok e)
    (hn : ∀ n ∈ s.lengths x, n ≤ options.maxLen) (p : Nat) (rest : Bytes) :
    (⟨options, ⟨p, e ++ rest⟩⟩ : Decoder).run s.decode =
      (.ok x, ⟨options, ⟨p + e.length, rest⟩⟩) :=
  run_decode_eq_ok_iff.2 ⟨e, rest, ⟨Put.toExcept_eq_ok_iff.1 h, hn⟩, rfl, rfl⟩

/-- **A whole input is read as a value when it is the bytes of the value,** and
perhaps more when that is allowed. -/
theorem ofBytes_eq_ok_iff {b : Bytes} :
    s.ofBytes options b = .ok x ↔ ∃ e rest, s.Written options.maxLen x e ∧ b = e ++ rest ∧
      (rest = [] ∨ options.allowTrailing = true) := by
  rw [ofBytes, Get.whole_eq_ok_iff]
  simp only [run_decode_eq_ok_iff, Decoder.finish_eq_ok_iff]
  constructor
  · rintro ⟨_, ⟨e, rest, he, hb, rfl⟩, hend⟩
    exact ⟨e, rest, he, hb, hend⟩
  · rintro ⟨e, rest, he, hb, hend⟩
    exact ⟨_, ⟨e, rest, he, hb, rfl⟩, hend⟩

/-- **No count above four bytes is ever written.** -/
theorem le_maxLength_of_encode {o : Ownership} {s : Schema o α} {x : α} {e : Bytes}
    (h : s.encode x = .raw e) : ∀ n ∈ s.lengths x, n ≤ Put.maxLength := by
  have helements : ∀ {β : Type} {t : Schema o β}, (∀ {x e}, t.encode x = .raw e →
      ∀ n ∈ t.lengths x, n ≤ Put.maxLength) → ∀ {xs : List β} {e},
        Put.concat (xs.map t.encode) = .raw e → ∀ n ∈ xs.flatMap t.lengths, n ≤ Put.maxLength := by
    intro β t ht xs e he
    refine forall_mem_lengths.2 fun x hx => ?_
    obtain ⟨a, ha⟩ := Put.exists_of_concat_eq_raw he _ (List.mem_map_of_mem hx)
    exact ht ha
  induction s generalizing e with
  | unit => exact List.forall_mem_nil _
  | scalar => exact List.forall_mem_nil _
  | bool => exact List.forall_mem_nil _
  | float p => exact List.forall_mem_nil _
  | text => exact List.forall_mem_singleton.2 (Put.sized_eq_raw_iff.1 h).1
  | raw n => exact List.forall_mem_nil _
  | enumeration t ht => exact List.forall_mem_nil _
  | option s ih =>
    cases x with
    | none => exact List.forall_mem_nil _
    | some x =>
      obtain ⟨_, b, -, hb, -⟩ := Put.append_eq_raw_iff.1 h
      exact ih hb
  | seq s ih =>
    rw [encode] at h
    split at h
    · exact absurd h (Put.fail_ne_raw _ _)
    · obtain ⟨a, b, ha, hb, -⟩ := Put.append_eq_raw_iff.1 h
      exact List.forall_mem_cons.2 ⟨(Put.length_eq_raw_iff.1 ha).1, helements ih hb⟩
  | array n s ih => exact helements ih h
  | pair s t ihs iht =>
    obtain ⟨a, b, ha, hb, -⟩ := Put.append_eq_raw_iff.1 h
    exact List.forall_mem_append.2 ⟨ihs ha, iht hb⟩
  | variants name pos le payload ih =>
    obtain ⟨_, b, -, hb, -⟩ := Put.append_eq_raw_iff.1 h
    exact ih _ hb
  | iso f s ih => exact ih h
  | ref hb s ih => exact ih h

/-- **A value that is given out is read back from its bytes** under the options
that a reader has when it is given none. -/
theorem ofBytes_of_toBytes {e : Bytes} (h : s.toBytes x = .ok e) : s.ofBytes {} e = .ok x := by
  have he := Put.toExcept_eq_ok_iff.1 h
  exact ofBytes_eq_ok_iff.2 ⟨e, [], ⟨he, le_maxLength_of_encode he⟩, (List.append_nil e).symm,
    .inl rfl⟩

/-- **No two values are written as the same bytes.** -/
theorem eq_of_toBytes {y : α} {e : Bytes} (hx : s.toBytes x = .ok e) (hy : s.toBytes y = .ok e) :
    x = y :=
  Except.ok.inj ((ofBytes_of_toBytes hx).symm.trans (ofBytes_of_toBytes hy))

/-! ### Canonical reading -/

/-- A value is read from the bytes that it is written as and ends where they do. -/
theorem toBytes_of_run_decode {b : Bytes} {p : Nat} {d : Decoder}
    (h : (⟨options, .seek b p⟩ : Decoder).run s.decode = (.ok x, d)) :
    ∃ q, p ≤ q ∧ (p ≤ b.length → q ≤ b.length) ∧ d = ⟨options, .seek b q⟩ ∧
      s.toBytes x = .ok (b.extract p q) := by
  obtain ⟨e, rest, ⟨he, -⟩, hb, rfl⟩ := run_decode_eq_ok_iff.1 h
  have hb : b.drop p = e ++ rest := hb
  have hrest : b.drop (p + e.length) = rest := by
    rw [← List.drop_drop, hb, List.drop_left]
  have hextract : b.extract p (p + e.length) = e := by
    rw [List.extract_eq_take_drop, Nat.add_sub_cancel_left, hb, List.take_left]
  refine ⟨p + e.length, Nat.le_add_right .., fun hp => ?_, ?_, ?_⟩
  · have hlen := congrArg List.length hb
    rw [List.length_drop, List.length_append] at hlen
    omega
  · exact congrArg (fun rest => Decoder.mk options ⟨p + e.length, rest⟩) hrest.symm
  · rw [hextract]
    exact Put.toExcept_eq_ok_iff.2 he

/-- An input that holds a value and nothing else is what the value is written as. -/
theorem toBytes_of_ofBytes {b : Bytes} (hstrict : options.allowTrailing = false)
    (h : s.ofBytes options b = .ok x) : s.toBytes x = .ok b := by
  obtain ⟨e, rest, ⟨he, -⟩, rfl, rfl | hend⟩ := ofBytes_eq_ok_iff.1 h
  · rw [List.append_nil]
    exact Put.toExcept_eq_ok_iff.2 he
  · exact absurd hend (hstrict ▸ Bool.false_ne_true)

/-- **Reading is canonical.**  Under any options and from any place, a value that
is read can be written, and it is written as the bytes that were taken.  So an
input that must hold a value and nothing else is read as one only if it is what
that value is written as, and no two such inputs are read as the same value.  A
type with a reader and a writer of its own reads only what it writes. -/
theorem decoding_is_canonical (s : Schema .owned α) :
    (∀ options b p x d, (⟨options, .seek b p⟩ : Decoder).run s.decode = (.ok x, d) →
      ∃ q, p ≤ q ∧ (p ≤ b.length → q ≤ b.length) ∧ d = ⟨options, .seek b q⟩ ∧
        s.toBytes x = .ok (b.extract p q)) ∧
    (∀ options b x, options.allowTrailing = false → s.ofBytes options b = .ok x →
      s.toBytes x = .ok b) ∧
    (∀ options options' b b' x, options.allowTrailing = false →
      options'.allowTrailing = false → s.ofBytes options b = .ok x →
        s.ofBytes options' b' = .ok x → b = b') ∧
    (∀ {β : Type} [Wire β] options b p (y : β) d,
      (⟨options, .seek b p⟩ : Decoder).run Wire.read = (.ok y, d) →
        ∃ q, p ≤ q ∧ (p ≤ b.length → q ≤ b.length) ∧ d = ⟨options, .seek b q⟩ ∧
          Wire.toBytes y = .ok (b.extract p q)) ∧
    (∀ {β : Type} [Wire β] options b (y : β), options.allowTrailing = false →
      Wire.ofBytes options b = .ok y → Wire.toBytes y = .ok b) := by
  refine ⟨fun options b p x d h => toBytes_of_run_decode h, fun options b x hstrict h =>
    toBytes_of_ofBytes hstrict h, fun options options' b b' x hstrict hstrict' h h' => ?_,
    fun options b p y d h => ?_, fun options b y hstrict h => ?_⟩
  · have hb := toBytes_of_ofBytes hstrict h
    have hb' := toBytes_of_ofBytes hstrict' h'
    exact Except.ok.inj (hb.symm.trans hb')
  · rw [Wire.read_eq] at h
    rw [Wire.toBytes_eq]
    exact toBytes_of_run_decode h
  · rw [Wire.ofBytes_eq] at h
    rw [Wire.toBytes_eq]
    exact toBytes_of_ofBytes hstrict h

/-- The hypotheses are satisfiable: a truth value and a list of one option stand
in an input after a byte and before another, and they are read from their own
bytes alone. -/
theorem decoding_is_canonical_pair :
    (∃ q, (⟨{}, .seek [7, 1, 1, 0, 0, 0, 1, 0, 9] 8⟩ : Decoder) =
        ⟨{}, .seek [7, 1, 1, 0, 0, 0, 1, 0, 9] q⟩ ∧
      (pair bool (seq (option bool)) : Schema .owned _).toBytes (true, [some false]) =
        .ok ([7, 1, 1, 0, 0, 0, 1, 0, 9].extract 1 q)) ∧
    (pair bool (seq (option bool)) : Schema .owned _).toBytes (true, [some false]) =
      .ok [1, 1, 0, 0, 0, 1, 0] ∧
    (∀ b, (pair bool (seq (option bool)) : Schema .owned _).ofBytes ⟨1, false⟩ b =
      .ok (true, [some false]) → b = [1, 1, 0, 0, 0, 1, 0]) ∧
    (∃ q, (⟨{}, .seek [7, 1, 1, 0, 0, 0, 1, 0, 9] 8⟩ : Decoder) =
        ⟨{}, .seek [7, 1, 1, 0, 0, 0, 1, 0, 9] q⟩ ∧
      Wire.toBytes (true, [some false]) = .ok ([7, 1, 1, 0, 0, 0, 1, 0, 9].extract 1 q)) ∧
    Wire.toBytes (true, [some false]) = .ok [1, 1, 0, 0, 0, 1, 0] := by
  obtain ⟨hrun, hbytes, hunique, hown, hwhole⟩ :=
    decoding_is_canonical (pair bool (seq (option bool)))
  refine ⟨?_, hbytes {} _ _ rfl rfl, fun b h => hunique _ {} _ _ _ rfl rfl h rfl, ?_,
    hwhole {} _ _ rfl rfl⟩
  · obtain ⟨q, -, -, hq, hb⟩ := hrun {} [7, 1, 1, 0, 0, 0, 1, 0, 9] 1 (true, [some false]) _ rfl
    exact ⟨q, hq, hb⟩
  · obtain ⟨q, -, -, hq, hb⟩ := hown {} [7, 1, 1, 0, 0, 0, 1, 0, 9] 1 (true, [some false]) _ rfl
    exact ⟨q, hq, hb⟩

end Schema
end LightWire
