/-
# Fields in a row

A buffer is written and a cursor is moved a field at a time.  The bytes hold the
values and nothing else, neither the kind of a field nor its width:

| field | values | bytes | written | read |
| --- | --- | ---: | --- | --- |
| `scalar` | integers, floating-point patterns | 1, 2, 4, 8 or 16 | `Buffer.scalar` | `Cursor.scalar` |
| `bytes n` | `n` bytes as they are | `n` | `Buffer.append` | `Cursor.take` |

Every string of the width of a field is the form of some value, so a field is read
wherever as many bytes are left (`read_of_le`).  It is the form of no other value
(`toBytes_inj`), so what is read is what was written (`read_eq_ok_iff`).  A schedule
of fields does the same with all of them in order (`readAll_eq_ok_iff`), and this law
read from right to left and from left to right is the main statement
(`schedules_are_mirrored`).
-/

import LightWire.Buffer
import LightWire.Cursor
import LightWire.Proofs.TwosComplement

namespace LightWire

/-- What is written or read at once, by the type of its values. -/
inductive Field : Type → Type 1 where
  /-- A word: an integer or the pattern of a floating-point number. -/
  | scalar {α : Type} [Scalar α] : Field α
  /-- A fixed count of bytes as they are. -/
  | bytes (n : Nat) : Field (Vector UInt8 n)

namespace Field

variable {α : Type}

/-- The count of bytes of a field. -/
def size : {α : Type} → Field α → Nat
  | α, scalar => Scalar.size α
  | _, bytes n => n

/-- The bytes of a value. -/
def toBytes : {α : Type} → Field α → α → Bytes
  | _, scalar, x => Scalar.toBytes x
  | _, bytes _, bs => bs.toList

/-- Appends a value to a buffer. -/
def write : {α : Type} → Field α → α → Buffer → Buffer
  | _, scalar, x, b => b.scalar x
  | _, bytes _, bs, b => b.append bs.toList

/-- Reads a value at a cursor. -/
def read : {α : Type} → Field α → Cursor → Except EndOfBuffer α × Cursor
  | α, scalar, c => c.scalar α
  | _, bytes n, c => c.take n

@[simp] theorem length_toBytes (f : Field α) (x : α) : (f.toBytes x).length = f.size := by
  cases f with
  | scalar => exact Scalar.length_toBytes x
  | bytes n => exact x.length_toList

/-- No two values have the same bytes: floating-point patterns differ in a bit. -/
theorem toBytes_inj {f : Field α} {x y : α} (h : f.toBytes x = f.toBytes y) : x = y := by
  cases f with
  | scalar => rw [← Scalar.ofBytes_toBytes x, ← Scalar.ofBytes_toBytes y]; exact congrArg _ h
  | bytes n => exact Vector.toList_inj.1 h

theorem write_eq (f : Field α) (x : α) (b : Buffer) : f.write x b = b.append (f.toBytes x) := by
  cases f with
  | scalar => rfl
  | bytes n => rfl

/-- **A field is read wherever as many bytes are left,** and gives the value whose
form they are. -/
theorem read_of_le {f : Field α} {c : Cursor} (h : f.size ≤ c.size) :
    ∃ x, f.read c = (.ok x, c.advance f.size) ∧ f.toBytes x = c.rest.take f.size := by
  cases f with
  | scalar =>
    have hsize : Scalar.size α ≤ c.size := h
    have hlen : (c.rest.take (Scalar.size α)).length = Scalar.size α := List.length_take_of_le h
    refine ⟨_, ?_, Scalar.toBytes_ofBytes hlen⟩
    rw [read, Cursor.scalar, Cursor.take_of_le hsize]
    rfl
  | bytes n => exact ⟨_, Cursor.take_of_le h, rfl⟩

/-- **A field is read nowhere else,** and the cursor stays. -/
theorem read_of_lt {f : Field α} {c : Cursor} (h : c.size < f.size) :
    f.read c = (.error ⟨f.size, c.size⟩, c) := by
  cases f with
  | scalar =>
    have hsize : c.size < Scalar.size α := h
    rw [read, Cursor.scalar, Cursor.take_of_lt hsize]
    rfl
  | bytes n => exact Cursor.take_of_lt h

/-- **A field gives the value whose bytes come next,** and the cursor goes on past
these bytes. -/
theorem read_eq_ok_iff {f : Field α} {c c' : Cursor} {x : α} :
    f.read c = (.ok x, c') ↔
      c.rest = f.toBytes x ++ c'.rest ∧ c'.position = c.position + f.size := by
  constructor
  · intro h
    rcases Nat.lt_or_ge c.size f.size with hlt | hle
    · rw [read_of_lt hlt] at h
      exact nomatch h
    · obtain ⟨y, hy, hbytes⟩ := read_of_le hle
      obtain ⟨rfl, rfl⟩ : y = x ∧ c.advance f.size = c' := by
        rw [hy] at h
        exact ⟨Except.ok.inj (congrArg Prod.fst h), congrArg Prod.snd h⟩
      exact ⟨by rw [hbytes, Cursor.advance, List.take_append_drop], rfl⟩
  · rintro ⟨hrest, hposition⟩
    have hle : f.size ≤ c.size := by
      rw [Cursor.size, hrest, List.length_append, length_toBytes]
      exact Nat.le_add_right ..
    obtain ⟨y, hy, hbytes⟩ := read_of_le hle
    rw [hrest, List.take_left' (length_toBytes f x)] at hbytes
    have hc' : c.advance f.size = c' := by
      rw [Cursor.advance, hrest, List.drop_left' (length_toBytes f x), ← hposition]
    rw [hy, toBytes_inj hbytes, hc']

end Field

/-! ### Schedules -/

/-- A field of some type. -/
structure Slot : Type 1 where
  /-- The type of its values. -/
  type : Type
  /-- The field. -/
  field : Field type

/-- A value for a field. -/
structure Entry : Type 1 where
  /-- The field and the type of its values. -/
  slot : Slot
  /-- The value. -/
  value : slot.type

/-- The bytes of an entry. -/
def Entry.bytes (e : Entry) : Bytes := e.slot.field.toBytes e.value

/-- Appends entries in order. -/
def Buffer.writeAll (es : List Entry) (b : Buffer) : Buffer :=
  es.foldl (fun b e => e.slot.field.write e.value b) b

/-- Reads fields in order, up to the first that fails. -/
def Cursor.readAll : List Slot → Cursor → Except EndOfBuffer (List Entry) × Cursor
  | [], c => (.ok [], c)
  | t :: ts, c =>
    match t.field.read c with
    | (.error e, c') => (.error e, c')
    | (.ok x, c') =>
      match readAll ts c' with
      | (.ok es, c'') => (.ok (⟨t, x⟩ :: es), c'')
      | (.error e, c'') => (.error e, c'')

/-- A buffer takes the bytes of each entry after those of the entries before. -/
theorem Buffer.writeAll_eq (es : List Entry) (b : Buffer) :
    b.writeAll es = b.append (es.flatMap Entry.bytes) := by
  induction es generalizing b with
  | nil => exact b.append_nil.symm
  | cons e es ih =>
    have hstep : b.writeAll (e :: es) = (e.slot.field.write e.value b).writeAll es := rfl
    rw [hstep, ih, Field.write_eq, List.flatMap_cons, append, append, append, List.append_assoc]
    rfl

namespace Cursor

/-- Fields in a row are read when the first one is and the others are from where it
left the cursor. -/
theorem readAll_cons_eq_ok_iff {t : Slot} {ts : List Slot} {es : List Entry} {c c' : Cursor} :
    c.readAll (t :: ts) = (.ok es, c') ↔ ∃ x c₁ rest, t.field.read c = (.ok x, c₁) ∧
      c₁.readAll ts = (.ok rest, c') ∧ es = ⟨t, x⟩ :: rest := by
  constructor
  · intro h
    rw [readAll] at h
    rcases hfirst : t.field.read c with ⟨e | x, c₁⟩
    · rw [hfirst] at h
      exact nomatch h
    · rw [hfirst] at h
      rcases hrest : c₁.readAll ts with ⟨e | rest, c₂⟩
      · simp only [hrest] at h
        exact nomatch h
      · simp only [hrest] at h
        obtain ⟨hes, rfl⟩ := Prod.mk.inj h
        exact ⟨x, c₁, rest, rfl, hrest, (Except.ok.inj hes).symm⟩
  · rintro ⟨x, c₁, rest, hfirst, hrest, rfl⟩
    rw [readAll, hfirst]
    simp only [hrest]

/-- **A schedule gives the entries whose bytes come next,** one for each field, and
the cursor goes on past these bytes. -/
theorem readAll_eq_ok_iff {ts : List Slot} {es : List Entry} {c c' : Cursor} :
    c.readAll ts = (.ok es, c') ↔ es.map Entry.slot = ts ∧
      c.rest = es.flatMap Entry.bytes ++ c'.rest ∧
      c'.position = c.position + (es.flatMap Entry.bytes).length := by
  induction ts generalizing es c with
  | nil =>
    rw [readAll, List.map_eq_nil_iff]
    constructor
    · rintro ⟨⟩
      exact ⟨rfl, rfl, rfl⟩
    · rintro ⟨rfl, hrest, hposition⟩
      have hc : c = c' := congrArg₂ Cursor.mk hposition.symm hrest
      rw [hc]
  | cons t ts ih =>
    simp only [readAll_cons_eq_ok_iff, Field.read_eq_ok_iff, ih]
    constructor
    · rintro ⟨x, c₁, rest, ⟨hfirst, hp⟩, ⟨rfl, hrest, hp'⟩, rfl⟩
      refine ⟨rfl, ?_, ?_⟩
      · rw [hfirst, hrest, List.flatMap_cons, List.append_assoc]
        rfl
      · rw [hp', hp, List.flatMap_cons, List.length_append, Nat.add_assoc, Entry.bytes,
          Field.length_toBytes]
    · rintro ⟨hts, hrest, hp⟩
      obtain ⟨⟨t, x⟩, rest, rfl, rfl, rfl⟩ := List.map_eq_cons_iff.1 hts
      rw [List.flatMap_cons, List.append_assoc] at hrest
      rw [List.flatMap_cons, List.length_append, ← Nat.add_assoc, Entry.bytes,
        Field.length_toBytes] at hp
      exact ⟨x, ⟨_, _⟩, rest, ⟨hrest, rfl⟩, ⟨rfl, rfl, hp⟩, rfl⟩

end Cursor

namespace Buffer

/-- **Writing and reading by one schedule are inverse.**  What entries leave in an
empty buffer is read back as these entries by their fields, whatever follows, and
the cursor is then after their bytes and before what follows.  In these bytes an
integer stands in two's complement and a floating-point number as its pattern, a
pattern that stands for no number too.  And whatever fields are read of an input,
one entry for each, these entries leave in an empty buffer the bytes that were
taken and no others. -/
theorem schedules_are_mirrored :
    (∀ (es : List Entry) (rest : Bytes),
      (Cursor.ofBytes ((empty.writeAll es).flush.1 ++ rest)).readAll (es.map Entry.slot) =
        (.ok es, ⟨(empty.writeAll es).flush.1.length, rest⟩)) ∧
    (∀ {α : Type} [Scalar α] [IntegerScalar α] (x : α) (b : Buffer),
      b.scalar x = ⟨b.bytes ++ Bytes.twosComplement (Scalar.size α) (IntegerScalar.number x)⟩) ∧
    (∀ {p : Precision} (x : FloatBits p) (b : Buffer),
      b.scalar x = ⟨b.bytes ++ Bytes.twosComplement p.width.bytes x.word.toNat⟩) ∧
    (∀ (data : Bytes) (ts : List Slot) (es : List Entry) (c : Cursor),
      (Cursor.ofBytes data).readAll ts = (.ok es, c) →
        es.map Entry.slot = ts ∧ data = (empty.writeAll es).flush.1 ++ c.rest ∧
          c.position = (empty.writeAll es).flush.1.length) := by
  have hwritten : ∀ es : List Entry, (empty.writeAll es).flush.1 = es.flatMap Entry.bytes :=
    fun es => by rw [writeAll_eq]; rfl
  refine ⟨fun es rest => ?_, fun x b => ?_, fun x b => ?_, fun data ts es c h => ?_⟩
  · rw [hwritten, Cursor.readAll_eq_ok_iff]
    exact ⟨rfl, rfl, (Nat.zero_add _).symm⟩
  · rw [← Scalar.toBytes_eq_number]
    rfl
  · exact congrArg (fun bytes => Buffer.mk (b.bytes ++ bytes)) (Scalar.toBytes_eq_twosComplement x)
  · obtain ⟨hts, hrest, hposition⟩ := Cursor.readAll_eq_ok_iff.1 h
    rw [hwritten]
    exact ⟨hts, hrest, hposition.trans (Nat.zero_add _)⟩

/-- The hypothesis is satisfiable: a number of two bytes, a pattern that stands for
no number, two bytes as they are and a number of one byte are read of an input
with one byte more, and written they are its other bytes. -/
theorem schedules_are_mirrored_pattern :
    (Cursor.ofBytes [254, 255, 1, 0, 128, 255, 7, 8, 128, 9]).readAll
        [⟨Int16, .scalar⟩, ⟨FloatBits .single, .scalar⟩, ⟨_, .bytes 2⟩, ⟨Int8, .scalar⟩] =
      (.ok [⟨⟨_, .scalar⟩, (-2 : Int16)⟩, ⟨⟨_, .scalar⟩, (⟨0xff800001⟩ : FloatBits .single)⟩,
        ⟨⟨_, .bytes 2⟩, #v[7, 8]⟩, ⟨⟨_, .scalar⟩, (-128 : Int8)⟩], ⟨9, [9]⟩) ∧
    [254, 255, 1, 0, 128, 255, 7, 8, 128, 9] =
      (empty.writeAll [⟨⟨_, .scalar⟩, (-2 : Int16)⟩,
        ⟨⟨_, .scalar⟩, (⟨0xff800001⟩ : FloatBits .single)⟩, ⟨⟨_, .bytes 2⟩, #v[7, 8]⟩,
        ⟨⟨_, .scalar⟩, (-128 : Int8)⟩]).flush.1 ++ [9] := by
  refine ⟨rfl, ?_⟩
  exact (schedules_are_mirrored.2.2.2 _ [⟨Int16, .scalar⟩, ⟨FloatBits .single, .scalar⟩,
    ⟨_, .bytes 2⟩, ⟨Int8, .scalar⟩] _ ⟨9, [9]⟩ rfl).2.1

end Buffer
end LightWire
