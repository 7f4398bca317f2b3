/-
# Values in a row

Values of any types may be put into one buffer, one after another, and read back
from its bytes by one decoder.  Nothing in the bytes tells where a value ends or
of what type it is: the reader knows the types in order, and each read stops
where the bytes of its value stop.

| | one value | values in a row |
| --- | --- | --- |
| type | `Schema` | `Shape` for each |
| written | `Buffer.put` | `Buffer.putAll` |
| read | `Decoder.run` | `Decoder.runAll` |
| read back | `run_decode_of_toBytes` | `runAll_of_putAll` |
-/

import LightWire.Proofs.RoundTrip

namespace LightWire

/-- A type with the shape of its values. -/
structure Shape : Type 1 where
  /-- The type. -/
  type : Type
  /-- The shape of its values. -/
  schema : Schema .owned type

/-- A value of a type with a schema. -/
structure Record : Type 1 where
  /-- The type and its schema. -/
  shape : Shape
  /-- The value. -/
  value : shape.type

namespace Record

/-- Writes the value. -/
def put (r : Record) : Put := r.shape.schema.encode r.value

/-- The counts in the value. -/
def lengths (r : Record) : List Nat := r.shape.schema.lengths r.value

end Record

/-- Appends runs of writes in order, up to the first that stops. -/
def Buffer.putAll : List Put → Buffer → Except WireError Unit × Buffer
  | [], b => (.ok (), b)
  | p :: ps, b =>
    match b.put p with
    | (.ok (), b') => putAll ps b'
    | (.error e, b') => (.error e, b')

/-- Reads values of given shapes in order, up to the first failure. -/
def Decoder.runAll : List Shape → Decoder → Except WireError (List Record) × Decoder
  | [], d => (.ok [], d)
  | t :: ts, d =>
    match d.run t.schema.decode with
    | (.error e, d') => (.error e, d')
    | (.ok x, d') =>
      match runAll ts d' with
      | (.ok rs, d'') => (.ok (⟨t, x⟩ :: rs), d'')
      | (.error e, d'') => (.error e, d'')

/-- **Runs appended in order are one run.** -/
theorem Buffer.putAll_eq (ps : List Put) (b : Buffer) : b.putAll ps = b.put (.concat ps) := by
  induction ps generalizing b with
  | nil =>
    rw [putAll, Put.concat_nil, Put.empty, put_raw, append_nil]
  | cons p ps ih =>
    rw [Put.concat_cons, put_append, putAll]
    rcases b.put p with ⟨_ | _, b'⟩
    · rfl
    · exact ih b'

namespace Decoder

variable {options : Options}

/-- **Values in a row are read back in order,** from any place and whatever
follows. -/
theorem runAll_of_concat {rs : List Record} {e : Bytes}
    (h : Put.concat (rs.map Record.put) = .raw e)
    (hn : ∀ r ∈ rs, ∀ n ∈ r.lengths, n ≤ options.maxLen) (p : Nat) (rest : Bytes) :
    (⟨options, ⟨p, e ++ rest⟩⟩ : Decoder).runAll (rs.map Record.shape) =
      (.ok rs, ⟨options, ⟨p + e.length, rest⟩⟩) := by
  induction rs generalizing p e with
  | nil =>
    obtain rfl := Put.empty_eq_raw_iff.1 h
    rfl
  | cons r rs ih =>
    obtain ⟨a, b, ha, hb, rfl⟩ := Put.append_eq_raw_iff.1 h
    obtain ⟨hr, hrs⟩ := List.forall_mem_cons.1 hn
    have hrun := Schema.run_decode_of_toBytes (Put.toExcept_eq_ok_iff.2 ha) hr p (b ++ rest)
    rw [List.map_cons, runAll, List.append_assoc, hrun]
    simp only [ih hb hrs, List.length_append, Nat.add_assoc]

/-- **Values put into one buffer are read back from its bytes,** and nothing is
left then. -/
theorem runAll_of_putAll {rs : List Record} {b : Buffer}
    (h : Buffer.empty.putAll (rs.map Record.put) = (.ok (), b))
    (hn : ∀ r ∈ rs, ∀ n ∈ r.lengths, n ≤ options.maxLen) :
    (Decoder.ofBytes options b.bytes).runAll (rs.map Record.shape) =
      (.ok rs, ⟨options, ⟨b.size, []⟩⟩) := by
  rw [Buffer.putAll_eq, Buffer.put_eq_ok_iff] at h
  obtain ⟨e, he, rfl⟩ := h
  have hrun := runAll_of_concat he hn 0 []
  rwa [List.append_nil, Nat.zero_add] at hrun

end Decoder

namespace Schema

/-- A value is read back between any two byte strings. -/
theorem run_decode_between {α : Type} {s : Schema .owned α} {x : α} {e : Bytes}
    {options : Options} (h : s.toBytes x = .ok e) (hn : ∀ n ∈ s.lengths x, n ≤ options.maxLen)
    (pre suf : Bytes) :
    (⟨options, .seek (pre ++ e ++ suf) pre.length⟩ : Decoder).run s.decode =
      (.ok x, ⟨options, .seek (pre ++ e ++ suf) (pre.length + e.length)⟩) := by
  have hpre : Cursor.seek (pre ++ e ++ suf) pre.length = ⟨pre.length, e ++ suf⟩ := by
    rw [Cursor.seek, List.append_assoc, List.drop_left]
  have hsuf : Cursor.seek (pre ++ e ++ suf) (pre.length + e.length) =
      ⟨pre.length + e.length, suf⟩ := by
    rw [Cursor.seek, ← List.length_append, List.drop_left]
  rw [hpre, hsuf]
  exact run_decode_of_toBytes h hn _ _

/-- **Writing and reading back, in a row and at any depth.**  A value of any
schema that is given out is read back from any input that holds its bytes, at
the place where they begin and up to the place where they end, under any limit
on counts that no count in the value is above; from its bytes alone it is read
back under the options that a reader has when it is given none.  Values of any
types put into one buffer are read back from its bytes in order, and the decoder
is then at the end of its input.  A type with a writer and a reader of its own reads
back what it writes, in the same way. -/
theorem stream_round_trip (options : Options) :
    (∀ {α : Type} (s : Schema .owned α) (x : α) (e pre suf : Bytes), s.toBytes x = .ok e →
      (∀ n ∈ s.lengths x, n ≤ options.maxLen) →
        (⟨options, .seek (pre ++ e ++ suf) pre.length⟩ : Decoder).run s.decode =
          (.ok x, ⟨options, .seek (pre ++ e ++ suf) (pre.length + e.length)⟩)) ∧
    (∀ {α : Type} (s : Schema .owned α) (x : α) (e : Bytes), s.toBytes x = .ok e →
      s.ofBytes {} e = .ok x) ∧
    (∀ (rs : List Record) (b : Buffer), Buffer.empty.putAll (rs.map Record.put) = (.ok (), b) →
      (∀ r ∈ rs, ∀ n ∈ r.lengths, n ≤ options.maxLen) →
        ∃ d, (Decoder.ofBytes options b.bytes).runAll (rs.map Record.shape) = (.ok rs, d) ∧
          d.remaining = 0 ∧ d.finish = .ok ()) ∧
    (∀ {α : Type} [Wire α] (x : α) (e pre suf : Bytes), Wire.toBytes x = .ok e →
      (∀ n ∈ Wire.schema.lengths x, n ≤ options.maxLen) →
        (⟨options, .seek (pre ++ e ++ suf) pre.length⟩ : Decoder).run Wire.read =
          (.ok x, ⟨options, .seek (pre ++ e ++ suf) (pre.length + e.length)⟩)) ∧
    (∀ {α : Type} [Wire α] (x : α) (e : Bytes), Wire.toBytes x = .ok e →
      Wire.ofBytes {} e = .ok x) := by
  refine ⟨fun s x e pre suf h hn => run_decode_between h hn pre suf,
    fun s x e => ofBytes_of_toBytes, fun rs b h hn => ?_, fun x e pre suf h hn => ?_,
    fun x e h => ?_⟩
  · exact ⟨_, Decoder.runAll_of_putAll h hn, rfl, rfl⟩
  · rw [Wire.toBytes_eq] at h
    rw [Wire.read_eq]
    exact run_decode_between h hn pre suf
  · rw [Wire.toBytes_eq] at h
    rw [Wire.ofBytes_eq]
    exact ofBytes_of_toBytes h

/-- The hypotheses are satisfiable: a list of two texts after a byte and before
another, under a limit that it just meets, and three values of three types in one
buffer. -/
theorem stream_round_trip_texts :
    (⟨⟨2, false⟩, .seek ([7] ++ [2, 0, 0, 0, 2, 0, 0, 0, 195, 169, 0, 0, 0, 0] ++ [9]) 1⟩ :
        Decoder).run (seq text).decode =
      (.ok ["é", ""], ⟨⟨2, false⟩, .seek
        ([7] ++ [2, 0, 0, 0, 2, 0, 0, 0, 195, 169, 0, 0, 0, 0] ++ [9]) 15⟩) ∧
    (seq text).ofBytes {} [2, 0, 0, 0, 2, 0, 0, 0, 195, 169, 0, 0, 0, 0] = .ok ["é", ""] ∧
    (⟨⟨2, false⟩, .seek ([7] ++ [2, 0, 0, 0, 2, 0, 0, 0, 195, 169, 0, 0, 0, 0] ++ [9]) 1⟩ :
        Decoder).run Wire.read =
      (.ok ["é", ""], ⟨⟨2, false⟩, .seek
        ([7] ++ [2, 0, 0, 0, 2, 0, 0, 0, 195, 169, 0, 0, 0, 0] ++ [9]) 15⟩) ∧
    Wire.ofBytes {} [2, 0, 0, 0, 2, 0, 0, 0, 195, 169, 0, 0, 0, 0] = .ok ["é", ""] ∧
    ∃ d, (Decoder.ofBytes ⟨1, false⟩ [254, 255, 1, 0, 0, 0, 97, 0]).runAll
        [⟨Int16, scalar⟩, ⟨String, text⟩, ⟨_, option bool⟩] =
      (.ok [⟨⟨_, scalar⟩, (-2 : Int16)⟩, ⟨⟨_, text⟩, "a"⟩, ⟨⟨_, option bool⟩, none⟩], d) ∧
        d.finish = .ok () := by
  have hbytes : (seq text : Schema .owned _).toBytes ["é", ""] =
      .ok [2, 0, 0, 0, 2, 0, 0, 0, 195, 169, 0, 0, 0, 0] := by rfl
  obtain ⟨d, hrun, -, hend⟩ := (stream_round_trip ⟨1, false⟩).2.2.1
    [⟨⟨_, scalar⟩, (-2 : Int16)⟩, ⟨⟨_, text⟩, "a"⟩, ⟨⟨_, option bool⟩, none⟩]
    ⟨[254, 255, 1, 0, 0, 0, 97, 0]⟩ rfl (by decide)
  refine ⟨(stream_round_trip ⟨2, false⟩).1 (seq text) ["é", ""] _ [7] [9] hbytes (by decide),
    (stream_round_trip {}).2.1 _ _ _ hbytes,
    (stream_round_trip ⟨2, false⟩).2.2.2.1 ["é", ""] _ [7] [9] hbytes (by decide),
    (stream_round_trip {}).2.2.2.2 _ _ hbytes, d, hrun, hend⟩

end Schema
end LightWire
