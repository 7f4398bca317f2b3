/-
# Reads that see only what they take

A read of the codec is put together from four parts and from reads in a row:

| part | does | fails |
| --- | --- | --- |
| `pure x` | nothing | never |
| `fail e` | nothing | always |
| `raw n` | takes `n` bytes | when fewer are left, at the end of the input |
| `within n` | nothing | when `n` is above the limit |

Nothing in it asks how many bytes are left or where the cursor is, so whatever
such a read does, it does because of the bytes that it took and of the limit.
A law of all reads of the codec is proved by induction on how a read is put
together: for each part, and for reads in a row from that of the reads
(`sequential_decode`).  The first such law is that a cursor goes forward and
never past the end (`Sequential.exists_advance`).
-/

import LightWire.Proofs.Acceptance

namespace LightWire

namespace Cursor

theorem advance_advance (c : Cursor) (j k : Nat) : (c.advance j).advance k = c.advance (j + k) := by
  simp only [advance, List.drop_drop, Nat.add_assoc]

theorem size_advance (c : Cursor) (k : Nat) : (c.advance k).size = c.size - k :=
  List.length_drop

theorem advance_seek (b : Bytes) (p k : Nat) : (seek b p).advance k = seek b (p + k) := by
  rw [advance, seek, List.drop_drop]
  rfl

end Cursor

namespace Get

variable {α : Type}

/-- Gives a count back; refuses one above the limit. -/
def within (n : Nat) : Get Nat := fun maxLen =>
  if maxLen < n then fail (.lengthLimit n maxLen) maxLen else Get.pure n maxLen

/-- A count is read as four bytes at once and then compared with the limit. -/
theorem length_eq_bind : length = scalar >>= fun word : UInt32 => within word.toNat := rfl

/-- A read that is put together from parts and sees of its input only the bytes
that the parts take. -/
inductive Sequential : {α : Type} → Get α → Prop
  /-- Reads nothing. -/
  | pure {α : Type} (x : α) : Sequential (pure x)
  /-- Refuses what was read before. -/
  | fail {α : Type} (e : WireError) : Sequential (fail e : Get α)
  /-- Takes bytes as they are. -/
  | raw (n : Nat) : Sequential (raw n)
  /-- Compares a count with the limit. -/
  | within (n : Nat) : Sequential (within n)
  /-- Reads in a row. -/
  | bind {α β : Type} {g : Get α} {f : α → Get β} (hg : Sequential g)
      (hf : ∀ x, Sequential (f x)) : Sequential (g >>= f)

/-- A choice that was made by what was read before. -/
theorem Sequential.ite {p : Prop} [Decidable p] {g g' : Get α} (hg : g.Sequential)
    (hg' : g'.Sequential) : (if p then g else g').Sequential := by
  split
  · exact hg
  · exact hg'

/-- **A cursor goes forward and never past the end,** whether the read ends or
fails. -/
theorem Sequential.exists_advance {g : Get α} (h : g.Sequential) (maxLen : Nat) (c : Cursor) :
    ∃ k ≤ c.size, (g maxLen c).2 = c.advance k := by
  induction h generalizing c with
  | pure x => exact ⟨0, Nat.zero_le _, rfl⟩
  | fail e => exact ⟨0, Nat.zero_le _, rfl⟩
  | raw n =>
    unfold Get.raw ofCursor
    by_cases hn : n ≤ c.size
    · rw [Cursor.take_of_le hn]
      exact ⟨n, hn, rfl⟩
    · rw [Cursor.take_of_lt (Nat.not_le.1 hn)]
      exact ⟨0, Nat.zero_le _, rfl⟩
  | within n =>
    unfold Get.within
    split
    · exact ⟨0, Nat.zero_le _, rfl⟩
    · exact ⟨0, Nat.zero_le _, rfl⟩
  | @bind _ _ g f hg hf ihg ihf =>
    obtain ⟨j, hj, hc⟩ := ihg c
    rw [bind_apply]
    rcases hr : g maxLen c with ⟨_ | x, c'⟩
    · exact ⟨j, hj, by rw [← hc, hr]⟩
    · -- The second read starts where the first one left the cursor.
      obtain rfl : c' = c.advance j := by rw [← hc, hr]
      obtain ⟨k, hk, hc'⟩ := ihf x (c.advance j)
      rw [Cursor.size_advance] at hk
      rw [Cursor.advance_advance] at hc'
      exact ⟨j + k, by omega, hc'⟩

/-- A read from a place in an input leaves the cursor at a place in it. -/
theorem Sequential.exists_seek {g : Get α} (h : g.Sequential) (maxLen : Nat) (b : Bytes)
    (p : Nat) : ∃ r k, k ≤ b.length - p ∧ g maxLen (.seek b p) = (r, .seek b (p + k)) := by
  obtain ⟨k, hk, hc⟩ := h.exists_advance maxLen (.seek b p)
  have hsize : k ≤ b.length - p := by rwa [Cursor.size, Cursor.seek, List.length_drop] at hk
  rw [Cursor.advance_seek] at hc
  exact ⟨_, k, hsize, Prod.ext rfl hc⟩

/-! ### Single reads -/

theorem sequential_scalar [Scalar α] : (scalar : Get α).Sequential := by
  rw [scalar_eq_bind]
  exact .bind (.raw _) fun _ => .pure _

theorem sequential_flag (invalid : UInt8 → WireError) : (flag invalid).Sequential :=
  .bind sequential_scalar fun _ => .ite (.pure false) (.ite (.pure true) (.fail _))

theorem sequential_float (p : Precision) : (float p).Sequential :=
  .bind sequential_scalar fun x => .ite (.fail _) (.pure x)

theorem sequential_length : length.Sequential := by
  rw [length_eq_bind]
  exact .bind sequential_scalar fun _ => .within _

theorem sequential_sized : sized.Sequential :=
  .bind sequential_length fun _ => .bind (.raw _) fun _ => .pure _

theorem sequential_text : text.Sequential := by
  refine .bind sequential_sized fun bs => ?_
  split
  · exact .pure _
  · exact .fail _

theorem sequential_tag (name : String) (count : Nat) : (tag name count).Sequential := by
  refine .ite (.fail _) (.bind sequential_scalar fun byte => ?_)
  split
  · exact .pure _
  · exact .fail _

theorem sequential_enumeration (t : Enumeration α) : t.get.Sequential := by
  refine .bind (sequential_tag t.name t.count) fun i => ?_
  split
  · exact .pure _
  · exact .fail _

theorem sequential_replicate {g : Get α} (hg : g.Sequential) (n : Nat) :
    (replicate g n).Sequential := by
  induction n with
  | zero => exact .pure _
  | succ n ih => exact .bind hg fun _ => .bind ih fun _ => .pure _

end Get

/-- A decoder does with a read what the read does at its cursor. -/
theorem Decoder.run_of_eq {α : Type} {g : Get α} {d : Decoder} {r : Except WireError α}
    {c : Cursor} (h : g d.options.maxLen d.cursor = (r, c)) : d.run g = (r, ⟨d.options, c⟩) := by
  unfold run
  rw [h]

/-- **A value of any schema is read by parts that see only what they take.** -/
theorem Schema.sequential_decode {α : Type} (s : Schema .owned α) : s.decode.Sequential := by
  induction s with
  | unit => exact .pure ()
  | scalar => exact Get.sequential_scalar
  | bool => exact Get.sequential_flag _
  | float p => exact Get.sequential_float p
  | text => exact Get.sequential_text
  | raw n => exact .raw n
  | enumeration t h => exact Get.sequential_enumeration t
  | option s ih =>
    exact .bind (Get.sequential_flag _) fun _ => .ite (.bind ih fun _ => .pure _) (.pure none)
  | seq s ih =>
    exact .bind Get.sequential_length fun n => .ite (.fail _)
      (.bind (Get.sequential_replicate ih n) fun _ => .pure _)
  | array n s ih => exact .bind (Get.sequential_replicate ih n) fun _ => .pure _
  | pair s t ihs iht => exact .bind ihs fun _ => .bind iht fun _ => .pure _
  | variants name pos le payload ih =>
    exact .bind (Get.sequential_tag name _) fun i => .bind (ih i) fun _ => .pure _
  | iso f s ih => exact .bind ih fun _ => .pure _
  | ref h s ih => exact absurd h Ownership.noConfusion

end LightWire
