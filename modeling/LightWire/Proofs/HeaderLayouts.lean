/-
# The two layouts of a header

A header is written in one layout to be sent and in another to be hashed.  Both have
the same fields in the same order but for the nanoseconds, which are only sent:

| sent at | hashed at | fields |
| --- | --- | --- |
| 0 to 143 | 0 to 143 | `height` up to `timestamp` |
| 144 to 151 | | `nanoseconds` |
| 152 to 215 | 144 to 207 | `nextProducers`, `blocks` |

So the hashed layout is the sent one without eight bytes (`without_toBytes`).  This
holds of what is written and, because reading is canonical, of what is read: an input
that holds a header holds its hashed form once the eight bytes are taken out.  Nothing
else is lost, for the hashed layout determines all the other fields.
-/

import LightWire.Proofs.Binding

namespace LightWire

namespace Bytes

/-- A byte string without those at the places from `i` up to `j`. -/
def without (b : Bytes) (i j : Nat) : Bytes := b.take i ++ b.drop j

/-- A field between two parts is taken out. -/
theorem without_append (a field rest : Bytes) :
    without (a ++ (field ++ rest)) a.length (a.length + field.length) = a ++ rest := by
  rw [without, List.take_left, List.drop_length_add_append, List.drop_left]

end Bytes

namespace Header

/-- What is written of a header before the nanoseconds. -/
def bytesBefore (h : Header) : Bytes :=
  Scalar.toBytes h.height ++ (h.epoch.toBytes ++ (h.nextEpoch.toBytes ++
    (h.previousState.toBytes ++ (h.outcomes.toBytes ++ Scalar.toBytes h.timestamp))))

/-- What is written of a header after the nanoseconds. -/
def bytesAfter (h : Header) : Bytes := h.nextProducers.toBytes ++ h.blocks.toBytes

/-- The 216 bytes of a header. -/
def toBytes (h : Header) : Bytes :=
  h.bytesBefore ++ (Scalar.toBytes h.nanoseconds ++ h.bytesAfter)

/-- **A header is always written,** as its 216 bytes. -/
theorem schema_toBytes (h : Header) : (schema (o := .owned)).toBytes h = .ok h.toBytes := by
  have hfields : (schema (o := .owned)).toBytes h =
      .ok (Scalar.toBytes h.height ++ (h.epoch.toBytes ++ (h.nextEpoch.toBytes ++
        (h.previousState.toBytes ++ (h.outcomes.toBytes ++ (Scalar.toBytes h.timestamp ++
          (Scalar.toBytes h.nanoseconds ++ h.bytesAfter))))))) := rfl
  rw [hfields]
  simp only [toBytes, bytesBefore, List.append_assoc]

/-- The hashed header is written as what stands beside the nanoseconds. -/
theorem hashed_toBytes (h : Header) : h.hashed.toBytes = h.bytesBefore ++ h.bytesAfter := by
  simp only [HashedHeader.toBytes, hashed, bytesBefore, bytesAfter, List.append_assoc]

theorem length_bytesBefore (h : Header) : h.bytesBefore.length = 144 := by
  simp [bytesBefore, Scalar.size, Scalar.width, Width.bytes]

theorem length_nanoseconds (h : Header) : (Scalar.toBytes h.nanoseconds).length = 8 :=
  Scalar.length_toBytes _

theorem length_toBytes (h : Header) : h.toBytes.length = 216 := by
  have hafter : h.bytesAfter.length = 64 := by simp [bytesAfter]
  rw [toBytes, List.length_append, List.length_append, length_bytesBefore, length_nanoseconds,
    hafter]

/-- **The hashed layout is the sent one without the nanoseconds,** whatever follows
the header. -/
theorem without_toBytes_append (h : Header) (rest : Bytes) :
    (h.toBytes ++ rest).without 144 152 = h.hashed.toBytes ++ rest := by
  have hfield := Bytes.without_append h.bytesBefore (Scalar.toBytes h.nanoseconds)
    (h.bytesAfter ++ rest)
  rw [length_bytesBefore, length_nanoseconds] at hfield
  rw [hashed_toBytes, toBytes, List.append_assoc, List.append_assoc, List.append_assoc]
  exact hfield

theorem without_toBytes (h : Header) : h.toBytes.without 144 152 = h.hashed.toBytes := by
  have hwhole := h.without_toBytes_append []
  rwa [List.append_nil, List.append_nil] at hwhole

/-! ### Reading -/

/-- A hashed header is read wherever its bytes are, under any limit, for there are no
counts in it. -/
theorem written_hashed (h : Header) (m : Nat) :
    HashedHeader.schema.Written m h.hashed h.hashed.toBytes :=
  ⟨Put.toExcept_eq_ok_iff.1 h.hashed.schema_toBytes, List.forall_mem_nil _⟩

/-- **An input that holds a header holds its hashed form** once the nanoseconds are
taken out of it. -/
theorem ofBytes_without {options : Options} {b : Bytes} {h : Header}
    (hb : schema.ofBytes options b = .ok h) :
    HashedHeader.schema.ofBytes options (b.without 144 152) = .ok h.hashed := by
  obtain ⟨e, rest, ⟨hencode, -⟩, rfl, hend⟩ := Schema.ofBytes_eq_ok_iff.1 hb
  have he : h.toBytes = e :=
    Except.ok.inj (h.schema_toBytes.symm.trans (Put.toExcept_eq_ok_iff.2 hencode))
  refine Schema.ofBytes_eq_ok_iff.2
    ⟨h.hashed.toBytes, rest, h.written_hashed options.maxLen, ?_, hend⟩
  rw [← he, without_toBytes_append]

/-! ### What the hashed layout keeps -/

/-- **Two headers are hashed as the same bytes exactly when all their fields but the
nanoseconds are the same.** -/
theorem hashed_toBytes_eq_iff {h h' : Header} :
    h.hashed.toBytes = h'.hashed.toBytes ↔
      h.height = h'.height ∧ h.epoch = h'.epoch ∧ h.nextEpoch = h'.nextEpoch ∧
        h.previousState = h'.previousState ∧ h.outcomes = h'.outcomes ∧
        h.timestamp = h'.timestamp ∧ h.nextProducers = h'.nextProducers ∧
        h.blocks = h'.blocks := by
  constructor
  · intro heq
    have hfields := HashedHeader.toBytes_inj heq
    rwa [hashed, hashed, HashedHeader.mk.injEq] at hfields
  · intro hfields
    have hhashed : h.hashed = h'.hashed := by
      rwa [hashed, hashed, HashedHeader.mk.injEq]
    rw [hhashed]

/-- **The two layouts of a header agree.**  A header is written as 216 bytes, and its
hashed form as the 208 of them that are left when those at the places from 144 up to
152 are taken out, which are the bytes of the nanoseconds.  The hashed form is read
back from the bytes left, whatever the options; and whatever input a header is read
of, its hashed form is read of that input without those places.  Two hashed forms are
written as the same bytes exactly if the headers agree in every field but the
nanoseconds. -/
theorem header_layouts_agree :
    (∀ h : Header, ∃ e, (schema (o := .owned)).toBytes h = .ok e ∧ e.length = 216 ∧
      (e.drop 144).take 8 = Scalar.toBytes h.nanoseconds ∧
      (HashedHeader.schema (o := .owned)).toBytes h.hashed = .ok (e.without 144 152) ∧
      (e.without 144 152).length = 208 ∧
      ∀ options, HashedHeader.schema.ofBytes options (e.without 144 152) = .ok h.hashed) ∧
    (∀ (options : Options) (b : Bytes) (h : Header), schema.ofBytes options b = .ok h →
      HashedHeader.schema.ofBytes options (b.without 144 152) = .ok h.hashed) ∧
    (∀ h h' : Header,
      (HashedHeader.schema (o := .owned)).toBytes h.hashed =
        (HashedHeader.schema (o := .owned)).toBytes h'.hashed ↔
      h.height = h'.height ∧ h.epoch = h'.epoch ∧ h.nextEpoch = h'.nextEpoch ∧
        h.previousState = h'.previousState ∧ h.outcomes = h'.outcomes ∧
        h.timestamp = h'.timestamp ∧ h.nextProducers = h'.nextProducers ∧
        h.blocks = h'.blocks) := by
  refine ⟨fun h => ⟨h.toBytes, h.schema_toBytes, h.length_toBytes, ?_, ?_, ?_, fun options => ?_⟩,
    fun options b h => ofBytes_without, fun h h' => ?_⟩
  · rw [toBytes, List.drop_left' h.length_bytesBefore, List.take_left' h.length_nanoseconds]
  · rw [h.without_toBytes]
    exact h.hashed.schema_toBytes
  · have hplaces := h.length_toBytes
    rw [Bytes.without, List.length_append, List.length_take, List.length_drop]
    omega
  · rw [h.without_toBytes]
    exact Schema.ofBytes_eq_ok_iff.2 ⟨_, [], h.written_hashed options.maxLen,
      (List.append_nil _).symm, .inl rfl⟩
  · rw [h.hashed.schema_toBytes, h'.hashed.schema_toBytes, Except.ok.injEq]
    exact hashed_toBytes_eq_iff

/-- The hypothesis is satisfiable: a header is read of its 216 bytes and one more, which
is allowed, and without the nanoseconds `2` its hashed form is read. -/
theorem header_layouts_agree_before_rest :
    schema.ofBytes ⟨0, true⟩ ([7, 0, 0, 0, 0, 0, 0, 0] ++ (List.replicate 128 0 ++
        ([1, 0, 0, 0, 0, 0, 0, 0] ++ ([2, 0, 0, 0, 0, 0, 0, 0] ++ (List.replicate 64 0 ++
          [9]))))) =
      .ok ⟨7, .zero, .zero, .zero, .zero, 1, 2, .zero, .zero⟩ ∧
    HashedHeader.schema.ofBytes ⟨0, true⟩ (Bytes.without ([7, 0, 0, 0, 0, 0, 0, 0] ++
        (List.replicate 128 0 ++ ([1, 0, 0, 0, 0, 0, 0, 0] ++ ([2, 0, 0, 0, 0, 0, 0, 0] ++
          (List.replicate 64 0 ++ [9]))))) 144 152) =
      .ok ⟨7, .zero, .zero, .zero, .zero, 1, .zero, .zero⟩ := by
  have hread : schema.ofBytes ⟨0, true⟩ ([7, 0, 0, 0, 0, 0, 0, 0] ++ (List.replicate 128 0 ++
      ([1, 0, 0, 0, 0, 0, 0, 0] ++ ([2, 0, 0, 0, 0, 0, 0, 0] ++ (List.replicate 64 0 ++
        [9]))))) = .ok ⟨7, .zero, .zero, .zero, .zero, 1, 2, .zero, .zero⟩ :=
    Schema.ofBytes_eq_ok_iff.2 ⟨toBytes ⟨7, .zero, .zero, .zero, .zero, 1, 2, .zero, .zero⟩, [9],
      ⟨Put.toExcept_eq_ok_iff.1 (schema_toBytes _), List.forall_mem_nil _⟩, by decide +kernel,
      .inr rfl⟩
  exact ⟨hread, header_layouts_agree.2.1 _ _ _ hread⟩

end Header
end LightWire
