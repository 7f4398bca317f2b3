/-
# Reading every cut of an input

An input `b` that begins with a value has one cut that holds the value and
nothing else.  If that cut is at `n`, the outcome at every other is settled:

| cut of `b` | bytes after the value refused | allowed |
| --- | --- | --- |
| at `k < n` | the end of the input | the end of the input |
| at `n` | the value | the value |
| at `k > n` | `trailingBytes n (k - n)` | the value |

No other failure comes first at a cut before `n`: whatever is refused there but
the end of the input would be refused in `b` as well, since a read is stable
under more input.
-/

import LightWire.Proofs.RoundTrip
import LightWire.Proofs.Stability

namespace LightWire

/-- Bytes that are left and not allowed are refused by their count. -/
theorem Decoder.finish_of_pos {options : Options} {c : Cursor}
    (hstrict : options.allowTrailing = false) (hc : 0 < c.size) :
    (⟨options, c⟩ : Decoder).finish = .error (.trailingBytes c.position c.size) := by
  have hleft : ¬(c.size = 0 ∨ options.allowTrailing = true) := by
    rw [hstrict]
    rintro (hzero | hallow)
    · omega
    · exact Bool.false_ne_true hallow
  unfold finish remaining
  rw [if_neg hleft]

namespace Get

variable {α : Type} {g : Get α} {options : Options} {b : Bytes} {c : Cursor}

/-- What a read refuses at the beginning of an input is refused of the whole. -/
theorem whole_of_error {e : WireError} (h : g options.maxLen (.ofBytes b) = (.error e, c)) :
    g.whole options b = .error e := by
  unfold whole Decoder.run Decoder.ofBytes
  simp only [h]

/-- What a read gives at the beginning of an input is given if what it leaves may
be left. -/
theorem whole_of_ok {x : α} (h : g options.maxLen (.ofBytes b) = (.ok x, c)) :
    g.whole options b = (⟨options, c⟩ : Decoder).finish.map fun _ => x := by
  unfold whole Decoder.run Decoder.ofBytes
  simp only [h]

/-- Whether what follows a value is allowed does not matter to any other failure. -/
theorem whole_of_allowed_error {m : Nat} {e : WireError} (h : g.whole ⟨m, true⟩ b = .error e) :
    g.whole ⟨m, false⟩ b = .error e := by
  rcases hg : g m (.ofBytes b) with ⟨f | x, c⟩
  · have hallowed : g.whole ⟨m, true⟩ b = .error f := whole_of_error hg
    rw [hallowed] at h
    rw [← h]
    exact whole_of_error hg
  · have hallowed : g.whole ⟨m, true⟩ b = .ok x := by
      rw [whole_of_ok hg, Decoder.finish_eq_ok_iff.2 (.inr rfl)]
      rfl
    rw [hallowed] at h
    exact nomatch h

end Get

namespace Schema

variable {α : Type} {s : Schema .owned α} {m : Nat} {x : α} {e : Bytes}

/-- A value is read where its bytes come next. -/
theorem decode_of_written (h : s.Written m x e) (p : Nat) (rest : Bytes) :
    s.decode m ⟨p, e ++ rest⟩ = (.ok x, ⟨p + e.length, rest⟩) :=
  (s.accepts_decode m p (e ++ rest) x _).2 ⟨e, rest, h, rfl, rfl⟩

/-- **A value that is cut off is the end of the input** and no other failure. -/
theorem decode_cut_off (h : s.Written m x e) {k : Nat} (hk : k < e.length) :
    ∃ c, s.decode m (.ofBytes (e.take k)) = (.error .unexpectedEnd, c) := by
  obtain ⟨j, hj, hc⟩ := s.sequential_decode.exists_advance m (.ofBytes (e.take k))
  have hjk : j ≤ k := by
    rw [Cursor.size, Cursor.ofBytes, List.length_take] at hj
    omega
  refine ⟨_, Prod.ext ?_ rfl⟩
  refine Classical.byContradiction fun hend => ?_
  -- The rest of the value would leave the cursor at the cut or before it.
  have hmore := s.sequential_decode.apply_extend rfl hend (e.drop k)
  have hwhole : (Cursor.ofBytes (e.take k)).extend (e.drop k) = ⟨0, e ++ []⟩ := by
    rw [Cursor.extend, Cursor.ofBytes, List.take_append_drop, List.append_nil]
  rw [hwhole, decode_of_written h, hc] at hmore
  have hposition : 0 + e.length = 0 + j :=
    congrArg (fun r : Except WireError α × Cursor => r.2.position) hmore
  omega

/-- A cut before the end of a value is the end of the input, whatever the options
on what follows. -/
theorem ofBytes_take_of_lt {rest : Bytes} (h : s.Written m x e) {k : Nat} (hk : k < e.length)
    (allow : Bool) : s.ofBytes ⟨m, allow⟩ ((e ++ rest).take k) = .error .unexpectedEnd := by
  obtain ⟨c, hc⟩ := decode_cut_off h hk
  rw [List.take_append_of_le_length (Nat.le_of_lt hk)]
  exact Get.whole_of_error hc

/-- A cut after the end of a value has trailing bytes. -/
theorem ofBytes_take_of_gt {rest : Bytes} (h : s.Written m x e) {k : Nat} (hk : e.length < k)
    (hrest : k ≤ e.length + rest.length) :
    s.ofBytes ⟨m, false⟩ ((e ++ rest).take k) =
      .error (.trailingBytes e.length (k - e.length)) := by
  have hlen : (rest.take (k - e.length)).length = k - e.length := by
    rw [List.length_take]
    omega
  have hread := decode_of_written h 0 (rest.take (k - e.length))
  have hpos : 0 < Cursor.size ⟨0 + e.length, rest.take (k - e.length)⟩ := by
    rw [Cursor.size, hlen]
    omega
  rw [List.take_append, List.take_of_length_le (Nat.le_of_lt hk), ofBytes, Get.whole_of_ok hread,
    Decoder.finish_of_pos rfl hpos, Cursor.size, hlen, Nat.zero_add]
  rfl

/-- A cut holds a value and nothing else when it is the bytes of the value. -/
theorem ofBytes_strict_iff {b : Bytes} :
    s.ofBytes ⟨m, false⟩ b = .ok x ↔ s.Written m x b := by
  rw [ofBytes_eq_ok_iff]
  constructor
  · rintro ⟨e, rest, h, rfl, rfl | hallow⟩
    · rwa [List.append_nil]
    · exact absurd hallow Bool.false_ne_true
  · intro h
    exact ⟨b, [], h, (List.append_nil b).symm, .inl rfl⟩

/-- **Every cut of an input.**  When what follows a value is allowed, a value is
read from an input exactly if some cut of the input holds that value and nothing
else.  There is one such cut, and it holds what the value is written as; a cut
before it is the end of the input, and a cut after it has trailing bytes.  What
is refused although what follows is allowed is refused for the same cause when
it is not. -/
theorem decoding_at_every_cut (s : Schema .owned α) (m : Nat) (b : Bytes) :
    (∀ x, s.ofBytes ⟨m, true⟩ b = .ok x ↔
      ∃ n, n ≤ b.length ∧ s.ofBytes ⟨m, false⟩ (b.take n) = .ok x) ∧
    (∀ x n, n ≤ b.length → s.ofBytes ⟨m, false⟩ (b.take n) = .ok x →
      (∃ e, s.toBytes x = .ok e ∧ e.length = n) ∧
      (∀ y k, k ≤ b.length → s.ofBytes ⟨m, false⟩ (b.take k) = .ok y → k = n ∧ y = x) ∧
      (∀ k, k < n → ∀ allow, s.ofBytes ⟨m, allow⟩ (b.take k) = .error .unexpectedEnd) ∧
      (∀ k, n < k → k ≤ b.length →
        s.ofBytes ⟨m, false⟩ (b.take k) = .error (.trailingBytes n (k - n)))) ∧
    (∀ e, s.ofBytes ⟨m, true⟩ b = .error e → s.ofBytes ⟨m, false⟩ b = .error e) := by
  refine ⟨fun x => ?_, fun x n hn hx => ?_, fun e => Get.whole_of_allowed_error⟩
  · simp only [ofBytes_strict_iff]
    rw [ofBytes_eq_ok_iff]
    constructor
    · rintro ⟨e, rest, h, rfl, -⟩
      exact ⟨e.length, by rw [List.length_append]; omega, by rwa [List.take_left]⟩
    · rintro ⟨n, -, h⟩
      exact ⟨b.take n, b.drop n, h, (List.take_append_drop n b).symm, .inr rfl⟩
  · obtain ⟨e, rest, rfl, rfl⟩ : ∃ e rest, b = e ++ rest ∧ n = e.length :=
      ⟨b.take n, b.drop n, (List.take_append_drop n b).symm, by rw [List.length_take_of_le hn]⟩
    rw [List.take_left] at hx
    have h := ofBytes_strict_iff.1 hx
    have hafter : ∀ k, e.length < k → k ≤ (e ++ rest).length →
        s.ofBytes ⟨m, false⟩ ((e ++ rest).take k) =
          .error (.trailingBytes e.length (k - e.length)) := fun k hk hkb =>
      ofBytes_take_of_gt h hk (by rwa [List.length_append] at hkb)
    refine ⟨⟨e, Put.toExcept_eq_ok_iff.2 h.1, rfl⟩, fun y k hkb hy => ?_,
      fun k hk allow => ofBytes_take_of_lt h hk allow, hafter⟩
    rcases Nat.lt_trichotomy k e.length with hk | rfl | hk
    · rw [ofBytes_take_of_lt h hk] at hy
      exact nomatch hy
    · rw [List.take_left, hx] at hy
      exact ⟨rfl, (Except.ok.inj hy).symm⟩
    · rw [hafter k hk hkb] at hy
      exact nomatch hy

/-- The hypotheses are satisfiable: a truth value and a list of one option, and
two bytes after them; and a truth value that is refused whatever follows. -/
theorem decoding_at_every_cut_pair :
    (pair bool (seq (option bool)) : Schema .owned _).ofBytes ⟨1, true⟩
        [1, 1, 0, 0, 0, 1, 0, 9, 9] = .ok (true, [some false]) ∧
    (∀ allow, (pair bool (seq (option bool)) : Schema .owned _).ofBytes ⟨1, allow⟩
      [1, 1, 0, 0, 0, 1] = .error .unexpectedEnd) ∧
    (pair bool (seq (option bool)) : Schema .owned _).ofBytes ⟨1, false⟩
      [1, 1, 0, 0, 0, 1, 0, 9, 9] = .error (.trailingBytes 7 2) ∧
    (pair bool (seq (option bool)) : Schema .owned _).ofBytes ⟨1, false⟩ [2, 1] =
      .error (.invalidBool 2) := by
  obtain ⟨hallowed, hcuts, -⟩ := decoding_at_every_cut (pair bool (seq (option bool))) 1
    [1, 1, 0, 0, 0, 1, 0, 9, 9]
  obtain ⟨-, -, hbefore, hafter⟩ := hcuts (true, [some false]) 7 (by decide) rfl
  exact ⟨(hallowed _).2 ⟨7, by decide, rfl⟩, hbefore 6 (by decide),
    hafter 9 (by decide) (by decide),
    (decoding_at_every_cut (pair bool (seq (option bool))) 1 [2, 1]).2.2 _ rfl⟩

end Schema
end LightWire
