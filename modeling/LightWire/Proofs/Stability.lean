/-
# Reading under more input

A read sees only the bytes that it takes, so bytes that are added after the end
of an input can matter to it only if it met that end:

| over `b` | over `b ++ t` |
| --- | --- |
| a value, cursor at `n` | the same value, cursor at `n` |
| the end of the input | anything |
| another failure, cursor at `n` | the same failure, cursor at `n` |

The law holds for each part that a read is put together from, and for reads in a
row because the first of them, if it did not meet the end, leaves the same cursor
to the second (`Sequential.apply_extend`).
-/

import LightWire.Proofs.Sequential

namespace LightWire

namespace Cursor

/-- The same place in an input that goes on after its end. -/
def extend (c : Cursor) (t : Bytes) : Cursor := ⟨c.position, c.rest ++ t⟩

theorem advance_extend {c : Cursor} {k : Nat} (h : k ≤ c.size) (t : Bytes) :
    (c.extend t).advance k = (c.advance k).extend t := by
  have hrest : k ≤ c.rest.length := h
  simp only [advance, extend, List.drop_append_of_le_length hrest]

/-- As many bytes as are left can be taken from a longer input as well. -/
theorem take_extend {n : Nat} {c : Cursor} (h : n ≤ c.size) (t : Bytes) :
    (c.extend t).take n = ((c.take n).1, (c.take n).2.extend t) := by
  have hrest : n ≤ c.rest.length := h
  have hsize : n ≤ (c.extend t).size := by
    simp only [size, extend, List.length_append]
    omega
  rw [take_of_le h, take_of_le hsize, advance_extend h]
  simp only [extend, List.take_append_of_le_length hrest]

/-- A place in an input, and in one that goes on after it. -/
theorem seek_append (b t : Bytes) (p : Nat) :
    seek (b ++ t) p = (seek b p).extend (t.drop (p - b.length)) := by
  rw [seek, List.drop_append]
  rfl

end Cursor

/-- **More input changes no outcome but the end of the input.** -/
theorem Get.Sequential.apply_extend {α : Type} {g : Get α} (h : g.Sequential) {maxLen : Nat}
    {c c' : Cursor} {r : Except WireError α} (hr : g maxLen c = (r, c'))
    (hend : r ≠ .error .unexpectedEnd) (t : Bytes) :
    g maxLen (c.extend t) = (r, c'.extend t) := by
  induction h generalizing c c' with
  | pure x =>
    obtain ⟨rfl, rfl⟩ := Prod.mk.inj hr
    rfl
  | fail e =>
    obtain ⟨rfl, rfl⟩ := Prod.mk.inj hr
    rfl
  | raw n =>
    unfold Get.raw Get.ofCursor at hr ⊢
    by_cases hn : n ≤ c.size
    · rw [Cursor.take_extend hn]
      rw [Cursor.take_of_le hn] at hr ⊢
      obtain ⟨rfl, rfl⟩ := Prod.mk.inj hr
      rfl
    · rw [Cursor.take_of_lt (Nat.not_le.1 hn)] at hr
      exact absurd (Prod.mk.inj hr).1.symm hend
  | within n =>
    unfold Get.within at hr ⊢
    split at hr
    · obtain ⟨rfl, rfl⟩ := Prod.mk.inj hr
      rw [if_pos ‹_›]
      rfl
    · obtain ⟨rfl, rfl⟩ := Prod.mk.inj hr
      rw [if_neg ‹_›]
      rfl
  | @bind β _ g f hg hf ihg ihf =>
    rw [Get.bind_apply] at hr ⊢
    rcases hgc : g maxLen c with ⟨e | x, c₁⟩
    · rw [hgc] at hr
      obtain ⟨rfl, rfl⟩ := Prod.mk.inj hr
      have hg_end : (.error e : Except WireError β) ≠ .error .unexpectedEnd := fun he =>
        hend (congrArg _ (Except.error.inj he))
      rw [ihg hgc hg_end]
    · rw [hgc] at hr
      rw [ihg hgc nofun]
      exact ihf x hr hend

namespace Schema

variable {α : Type}

/-- What a decoder does with a value at a place, whether the value can be read or
not: it ends further on in its input, and does the same under more input unless
it met the end. -/
theorem exists_run_decode (s : Schema .owned α) (options : Options) (b : Bytes) (p : Nat) :
    ∃ r n, p ≤ n ∧ (p ≤ b.length → n ≤ b.length) ∧
      (⟨options, .seek b p⟩ : Decoder).run s.decode = (r, ⟨options, .seek b n⟩) ∧
      (r ≠ .error .unexpectedEnd → ∀ t,
        (⟨options, .seek (b ++ t) p⟩ : Decoder).run s.decode =
          (r, ⟨options, .seek (b ++ t) n⟩)) := by
  obtain ⟨r, k, hk, hrun⟩ := s.sequential_decode.exists_seek options.maxLen b p
  refine ⟨r, p + k, Nat.le_add_right p k, by omega, Decoder.run_of_eq hrun, fun hend t => ?_⟩
  have hext := s.sequential_decode.apply_extend hrun hend (t.drop (p - b.length))
  have hskip : p + k - b.length = p - b.length := by omega
  rw [← Cursor.seek_append] at hext
  rw [Cursor.seek_append b t (p + k), hskip]
  exact Decoder.run_of_eq hext

/-- **Reading is stable under more input.**  Under any options and from any place,
a value that is read is read from a longer input as well, and so is any failure
but the end of the input, both with the cursor left at the same place; and every
read leaves the cursor at a place of its input.  So the only outcome that more
input can change is the end of the input. -/
theorem decoding_is_stable (s : Schema .owned α) (options : Options) (b t : Bytes) (p : Nat) :
    (∀ x n, (⟨options, .seek b p⟩ : Decoder).run s.decode = (.ok x, ⟨options, .seek b n⟩) →
      (⟨options, .seek (b ++ t) p⟩ : Decoder).run s.decode =
        (.ok x, ⟨options, .seek (b ++ t) n⟩)) ∧
    (∀ e n, (⟨options, .seek b p⟩ : Decoder).run s.decode = (.error e, ⟨options, .seek b n⟩) →
      e ≠ .unexpectedEnd →
        (⟨options, .seek (b ++ t) p⟩ : Decoder).run s.decode =
          (.error e, ⟨options, .seek (b ++ t) n⟩)) ∧
    (∃ r n, p ≤ n ∧ (p ≤ b.length → n ≤ b.length) ∧
      (⟨options, .seek b p⟩ : Decoder).run s.decode = (r, ⟨options, .seek b n⟩)) ∧
    (((⟨options, .seek b p⟩ : Decoder).run s.decode).1 ≠
        ((⟨options, .seek (b ++ t) p⟩ : Decoder).run s.decode).1 →
      ((⟨options, .seek b p⟩ : Decoder).run s.decode).1 = .error .unexpectedEnd) := by
  obtain ⟨r, n, hn, hlen, hrun, hmore⟩ := s.exists_run_decode options b p
  have hstable : ∀ r' n', (⟨options, .seek b p⟩ : Decoder).run s.decode =
      (r', ⟨options, .seek b n'⟩) → r' ≠ .error .unexpectedEnd →
        (⟨options, .seek (b ++ t) p⟩ : Decoder).run s.decode =
          (r', ⟨options, .seek (b ++ t) n'⟩) := by
    intro r' n' hrun' hend
    obtain ⟨rfl, hd⟩ := Prod.mk.inj (hrun.symm.trans hrun')
    obtain rfl : n = n' := congrArg (fun d => d.cursor.position) hd
    exact hmore hend t
  refine ⟨fun x n' h => hstable _ n' h nofun, fun e n' h he => hstable _ n' h ?_,
    ⟨r, n, hn, hlen, hrun⟩, fun hne => ?_⟩
  · exact fun hend => he (Except.error.inj hend)
  · refine Classical.byContradiction fun hend => hne ?_
    rw [hrun] at hend ⊢
    rw [hmore hend t]

/-- The hypotheses are satisfiable: a truth value and an option stand in an input
after a byte; with one more byte the option is still none, the presence byte `2`
is still refused, and only the option that was cut off is read after all. -/
theorem decoding_is_stable_option :
    (⟨{}, .seek ([7, 1, 0] ++ [9]) 1⟩ : Decoder).run (pair bool (option bool)).decode =
      (.ok (true, none), ⟨{}, .seek ([7, 1, 0] ++ [9]) 3⟩) ∧
    (⟨{}, .seek ([7, 1, 2] ++ [9]) 1⟩ : Decoder).run (pair bool (option bool)).decode =
      (.error (.invalidOption 2), ⟨{}, .seek ([7, 1, 2] ++ [9]) 3⟩) ∧
    ((⟨{}, .seek [7, 1] 1⟩ : Decoder).run (pair bool (option bool)).decode).1 =
      .error .unexpectedEnd :=
  ⟨(decoding_is_stable (pair bool (option bool)) {} [7, 1, 0] [9] 1).1 _ _ rfl,
    (decoding_is_stable (pair bool (option bool)) {} [7, 1, 2] [9] 1).2.1 _ _ rfl (by decide),
    (decoding_is_stable (pair bool (option bool)) {} [7, 1] [0] 1).2.2.2 nofun⟩

end Schema
end LightWire
