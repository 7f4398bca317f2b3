/-
# Runs of operations on a cursor

One cursor serves any operations, one after another and also after one that
failed, and it may be set to another input in between.  What each does:

| operation | answers | the cursor then |
| --- | --- | --- |
| `read f`, its bytes are left | the value of the next bytes | is after these bytes |
| `read f`, fewer are left | the count wanted and the count left | stays |
| `peek` | the next byte, if any | stays |
| `reset data` | done | is at the beginning of `data` |

The one invariant is that nothing is lost and nothing given twice: the bytes that
the reads since the last reset gave and then the bytes left are the input
(`Session.Lossless`).  Each operation keeps it, hence each run does, and where
the cursor is and what comes next follow from it (`reads_account_for_input`).

A cursor holds the bytes left, so nothing can go wrong about its place.  Where
the whole input is held instead, with an index, the count left is a difference,
the end of a read a sum that a word has to hold, and the bytes read a part of the
input with a beginning and an end.  `Indexed` has these steps as ones that may go
wrong, and by the same invariant none ever does (`runEvents?_eq`).
-/

import LightWire.Proofs.Fields

namespace LightWire
namespace Cursor

/-- An operation on a cursor, by the type of what it answers. -/
inductive Operation : Type → Type 1 where
  /-- Reads a field. -/
  | read {α : Type} (f : Field α) : Operation (Except EndOfBuffer α)
  /-- Tells the next byte. -/
  | peek : Operation (Option UInt8)
  /-- Goes to the beginning of an input. -/
  | reset (data : Bytes) : Operation Unit

/-- An operation of a history, whatever it answers. -/
abbrev Event : Type 1 := (ρ : Type) × Operation ρ

/-- What an operation of a history answered. -/
abbrev Answer : Type 1 := (ρ : Type) × ρ

/-- A cursor, the input that it was set to last and the bytes that reads have given
since then. -/
structure Session where
  /-- The input that the cursor was set to last. -/
  input : Bytes
  /-- The bytes that reads have given of it, in order. -/
  given : Bytes
  /-- The cursor. -/
  cursor : Cursor

/-- A cursor at the beginning of an input. -/
def Session.start (data : Bytes) : Session := ⟨data, [], .ofBytes data⟩

namespace Operation

/-- What an operation answers, and the session after it. -/
def run : {ρ : Type} → Operation ρ → Session → ρ × Session
  | _, read f, s =>
    match f.read s.cursor with
    | (.ok x, c) => (.ok x, { s with given := s.given ++ f.toBytes x, cursor := c })
    | (.error e, c) => (.error e, { s with cursor := c })
  | _, peek, s => (s.cursor.peek, s)
  | _, reset data, _ => ((), .start data)

/-- The input that an operation sets has a length that a word holds. -/
def Addressable : {ρ : Type} → Operation ρ → Prop
  | _, read _ => True
  | _, peek => True
  | _, reset data => data.length < UInt64.size

end Operation

/-- What operations in a row answer, and the session after them. -/
def runEvents : List Event → Session → List Answer × Session
  | [], s => ([], s)
  | event :: events, s =>
    let first := event.2.run s
    let rest := runEvents events first.2
    (⟨event.1, first.1⟩ :: rest.1, rest.2)

/-! ### What is given and what is left -/

/-- The bytes given and the bytes left are the input, and the cursor is between
them. -/
structure Session.Lossless (s : Session) : Prop where
  input_eq : s.input = s.given ++ s.cursor.rest
  position_eq : s.cursor.position = s.given.length

namespace Session.Lossless

variable {s : Session}

protected theorem start (data : Bytes) : (start data).Lossless := ⟨rfl, rfl⟩

theorem position_add_size (h : s.Lossless) :
    s.cursor.position + s.cursor.size = s.input.length := by
  rw [h.position_eq, h.input_eq, List.length_append, size]

theorem given_eq_take (h : s.Lossless) : s.given = s.input.take s.cursor.position := by
  rw [h.position_eq, h.input_eq, List.take_left]

theorem rest_eq_drop (h : s.Lossless) : s.cursor.rest = s.input.drop s.cursor.position := by
  rw [h.position_eq, h.input_eq, List.drop_left]

end Session.Lossless

theorem peek_eq_none_iff {c : Cursor} : c.peek = none ↔ c.size = 0 := by
  rw [peek, List.head?_eq_none_iff, size, List.length_eq_zero_iff]

/-- **The next byte is what a read of a byte gives.** -/
theorem peek_eq_some_iff {c : Cursor} {b : UInt8} :
    c.peek = some b ↔ ∃ c', (Field.scalar : Field UInt8).read c = (.ok b, c') := by
  simp only [Field.read_eq_ok_iff, Field.toBytes, Scalar.toBytes_byte, peek,
    List.head?_eq_some_iff]
  constructor
  · rintro ⟨rest, hrest⟩
    exact ⟨⟨_, rest⟩, hrest, rfl⟩
  · rintro ⟨c', hrest, -⟩
    exact ⟨c'.rest, hrest⟩

namespace Operation

/-- **A read gives the next bytes when they are left.** -/
theorem run_read_of_le {α : Type} {f : Field α} {s : Session} (h : f.size ≤ s.cursor.size) :
    ∃ x, (read f).run s =
      (.ok x, ⟨s.input, s.given ++ s.cursor.rest.take f.size, s.cursor.advance f.size⟩) := by
  obtain ⟨x, hread, hbytes⟩ := Field.read_of_le h
  exact ⟨x, by rw [run, hread, ← hbytes]⟩

/-- **A read changes nothing when they are not.** -/
theorem run_read_of_lt {α : Type} {f : Field α} {s : Session} (h : s.cursor.size < f.size) :
    (read f).run s = (.error ⟨f.size, s.cursor.size⟩, s) := by
  rw [run, Field.read_of_lt h]

/-- **No operation loses a byte or gives one twice.** -/
theorem lossless_run {ρ : Type} (op : Operation ρ) {s : Session} (h : s.Lossless) :
    (op.run s).2.Lossless := by
  cases op with
  | read f =>
    rcases Nat.lt_or_ge s.cursor.size f.size with hlt | hle
    · rw [run_read_of_lt hlt]
      exact h
    · obtain ⟨x, hrun⟩ := run_read_of_le hle
      rw [hrun]
      refine ⟨?_, ?_⟩
      · rw [h.input_eq, List.append_assoc, advance, List.take_append_drop]
      · rw [advance, h.position_eq, List.length_append, List.length_take_of_le hle]
  | peek => exact h
  | reset data => exact .start data

end Operation

/-- **No run of operations loses a byte or gives one twice.** -/
theorem lossless_runEvents (events : List Event) {s : Session} (h : s.Lossless) :
    (runEvents events s).2.Lossless := by
  induction events generalizing s with
  | nil => exact h
  | cons event events ih => exact ih (event.2.lossless_run h)

/-! ### The same by an index -/

/-- A whole input and an index into it. -/
structure Indexed where
  /-- The input. -/
  data : Bytes
  /-- The index of the next byte. -/
  index : Nat

namespace Indexed

/-- A difference, unless it is negative. -/
def minus? (a b : Nat) : Option Nat := if b ≤ a then some (a - b) else none

/-- A sum, unless a word does not hold it. -/
def plus? (a b : Nat) : Option Nat := if a + b < UInt64.size then some (a + b) else none

/-- The bytes from one index to another, unless they are out of order or beyond the
end. -/
def slice? (data : Bytes) (first last : Nat) : Option Bytes :=
  if first ≤ last ∧ last ≤ data.length then some ((data.drop first).take (last - first)) else none

/-- A copy into `n` bytes, unless there are more or fewer. -/
def copy? (n : Nat) (bs : Bytes) : Option (Vector UInt8 n) :=
  if h : bs.length = n then some ⟨bs.toArray, h⟩ else none

/-- Takes the next `n` bytes, all or none, unless a step goes wrong. -/
def take? (n : Nat) (r : Indexed) : Option (Except EndOfBuffer (Vector UInt8 n) × Indexed) := do
  let size ← minus? r.data.length r.index
  if size < n then some (.error ⟨n, size⟩, r)
  else
    let last ← plus? r.index n
    let bs ← slice? r.data r.index last
    let field ← copy? n bs
    some (.ok field, { r with index := last })

/-- Reads a field, unless a step goes wrong. -/
def read? : {α : Type} → Field α → Indexed → Option (Except EndOfBuffer α × Indexed)
  | α, @Field.scalar _ _, r => (r.take? (Scalar.size α)).map fun taken =>
    (taken.1.map fun field => Scalar.ofBytes field.toList, taken.2)
  | _, .bytes n, r => r.take? n

/-- What an operation answers and the reader after it, unless a step goes wrong. -/
def run? : {ρ : Type} → Operation ρ → Indexed → Option (ρ × Indexed)
  | _, .read f, r => r.read? f
  | _, .peek, r => some (r.data[r.index]?, r)
  | _, .reset data, _ => some ((), ⟨data, 0⟩)

/-- What operations in a row answer and the reader after them, unless a step goes
wrong. -/
def runEvents? : List Event → Indexed → Option (List Answer × Indexed)
  | [], r => some ([], r)
  | event :: events, r =>
    match run? event.2 r with
    | none => none
    | some (answer, r') =>
      match runEvents? events r' with
      | none => none
      | some (answers, r'') => some (⟨event.1, answer⟩ :: answers, r'')

end Indexed

/-- The input of a session and the index that its cursor stands for. -/
def Session.indexed (s : Session) : Indexed := ⟨s.input, s.cursor.position⟩

namespace Indexed

variable {s : Session}

/-- **No step of taking bytes goes wrong** where nothing was lost. -/
theorem take?_indexed (h : s.Lossless) (hword : s.input.length < UInt64.size) (n : Nat) :
    s.indexed.take? n =
      some ((s.cursor.take n).1, ⟨s.input, (s.cursor.take n).2.position⟩) := by
  -- The one fact behind every bound: the index is at most the length, and so is the
  -- end of any bytes that are left.
  have hlength := h.position_add_size
  have hminus : minus? s.input.length s.cursor.position = some s.cursor.size := by
    rw [minus?, if_pos (by omega), ← hlength, Nat.add_sub_cancel_left]
  unfold take? Session.indexed
  simp only [hminus, Option.bind_eq_bind, Option.bind_some]
  rcases Nat.lt_or_ge s.cursor.size n with hlt | hle
  · rw [if_pos hlt, take_of_lt hlt]
  · have hplus : plus? s.cursor.position n = some (s.cursor.position + n) :=
      if_pos (by omega)
    have hslice : slice? s.input s.cursor.position (s.cursor.position + n) =
        some (s.cursor.rest.take n) := by
      rw [slice?, if_pos ⟨Nat.le_add_right .., by omega⟩, Nat.add_sub_cancel_left, h.rest_eq_drop]
    have hlen : (s.cursor.rest.take n).length = n := List.length_take_of_le hle
    have hcopy : copy? n (s.cursor.rest.take n) = some ⟨(s.cursor.rest.take n).toArray, hlen⟩ :=
      dif_pos hlen
    rw [if_neg (Nat.not_lt.2 hle), take_of_le hle]
    simp only [hplus, hslice, hcopy, Option.bind_some]
    rfl

/-- A field is read by an index as at the cursor. -/
theorem read?_indexed (h : s.Lossless) (hword : s.input.length < UInt64.size) {α : Type}
    (f : Field α) :
    s.indexed.read? f = some ((f.read s.cursor).1, ⟨s.input, (f.read s.cursor).2.position⟩) := by
  cases f with
  | scalar =>
    rw [read?, take?_indexed h hword, Field.read, Cursor.scalar]
    rcases s.cursor.take (Scalar.size α) with ⟨_ | _, c⟩
    · rfl
    · rfl
  | bytes n => exact take?_indexed h hword n

/-- **No step of an operation goes wrong** where nothing was lost, and it answers
as at the cursor. -/
theorem run?_indexed (h : s.Lossless) (hword : s.input.length < UInt64.size) {ρ : Type}
    (op : Operation ρ) : run? op s.indexed = some ((op.run s).1, (op.run s).2.indexed) := by
  cases op with
  | read f =>
    rw [run?, read?_indexed h hword, Operation.run]
    rcases f.read s.cursor with ⟨_ | _, c⟩
    · rfl
    · rfl
  | peek =>
    have hpeek : s.input[s.cursor.position]? = s.cursor.peek := by
      rw [peek, h.rest_eq_drop, List.head?_drop]
    exact congrArg (fun answer => some (answer, s.indexed)) hpeek
  | reset data => rfl

/-- The input is one that words address, whatever the operation sets it to. -/
theorem length_input_run {ρ : Type} {op : Operation ρ} (hop : op.Addressable)
    (hword : s.input.length < UInt64.size) : (op.run s).2.input.length < UInt64.size := by
  cases op with
  | read f =>
    rw [Operation.run]
    rcases f.read s.cursor with ⟨_ | _, c⟩
    · exact hword
    · exact hword
  | peek => exact hword
  | reset data => exact hop

/-- **No step of a run goes wrong,** and the run answers as at the cursor. -/
theorem runEvents?_eq {events : List Event} (hevents : ∀ event ∈ events, event.2.Addressable)
    (h : s.Lossless) (hword : s.input.length < UInt64.size) :
    runEvents? events s.indexed =
      some ((runEvents events s).1, (runEvents events s).2.indexed) := by
  induction events generalizing s with
  | nil => rfl
  | cons event events ih =>
    obtain ⟨hevent, hevents⟩ := List.forall_mem_cons.1 hevents
    have hrest := ih hevents (event.2.lossless_run h) (length_input_run hevent hword)
    rw [runEvents?, run?_indexed h hword]
    simp only [hrest]
    rfl

end Indexed

/-- **Reads account for the input.**  After any operations on a cursor, failures
included, its place and the count of bytes left add up to the length of the input
that it was set to last.  A field is read exactly when as many bytes are left: it
is then the value of the bytes from that place on, and the cursor goes on past
them; otherwise both counts are reported and nothing changes.  The byte that is
told is the one that a read would give next, and none is told exactly when none
is left.  What reads have given since the last reset is the input up to the place,
in order.  And where the input is held whole with an index, and the length of
each input is one that a word holds, the same operations answer the same, no
difference is negative, no sum too large and no slice out of range. -/
theorem reads_account_for_input {data : Bytes} {history : List Event} {answers : List Answer}
    {s : Session} (h : runEvents history (.start data) = (answers, s)) :
    (s.cursor.position ≤ s.input.length ∧
      s.cursor.position + s.cursor.size = s.input.length) ∧
    (∀ {α : Type} (f : Field α), f.size ≤ s.cursor.size →
      ∃ x, f.read s.cursor = (.ok x, .seek s.input (s.cursor.position + f.size)) ∧
        f.toBytes x = (s.input.drop s.cursor.position).take f.size) ∧
    (∀ {α : Type} (f : Field α), s.cursor.size < f.size →
      f.read s.cursor = (.error ⟨f.size, s.cursor.size⟩, s.cursor)) ∧
    (∀ b, s.cursor.peek = some b ↔
      ∃ c, (Field.scalar : Field UInt8).read s.cursor = (.ok b, c)) ∧
    (s.cursor.peek = none ↔ s.cursor.size = 0) ∧
    s.given = s.input.take s.cursor.position ∧
    (data.length < UInt64.size → (∀ event ∈ history, event.2.Addressable) →
      Indexed.runEvents? history ⟨data, 0⟩ = some (answers, ⟨s.input, s.cursor.position⟩)) := by
  have hs : s.Lossless := by
    have hrun := lossless_runEvents history (.start data)
    rwa [h] at hrun
  have hlength := hs.position_add_size
  refine ⟨⟨by omega, hlength⟩, fun f hle => ?_, fun f => Field.read_of_lt,
    fun b => peek_eq_some_iff, peek_eq_none_iff, hs.given_eq_take, fun hdata hhistory => ?_⟩
  · obtain ⟨x, hread, hbytes⟩ := Field.read_of_le hle
    refine ⟨x, ?_, hs.rest_eq_drop ▸ hbytes⟩
    rw [hread, advance, seek, hs.rest_eq_drop, List.drop_drop]
  · have hrun := Indexed.runEvents?_eq hhistory (.start data) hdata
    rwa [h] at hrun

/-- The hypotheses are satisfiable: a number of two bytes is read and two bytes more
are not there; after a reset one byte is read, a number of one byte can be read next
and one of two bytes cannot, and an index into the two inputs does the same. -/
theorem reads_account_for_input_after_failure : ∃ answers,
    runEvents [⟨_, .read (α := UInt16) .scalar⟩, ⟨_, .read (.bytes 2)⟩, ⟨_, .reset [1, 2]⟩,
        ⟨_, .read (.bytes 1)⟩] (.start [7, 8, 9]) = (answers, ⟨[1, 2], [1], ⟨1, [2]⟩⟩) ∧
    (∃ x, (Field.scalar : Field Int8).read ⟨1, [2]⟩ = (.ok x, .seek [1, 2] 2) ∧
      Scalar.toBytes x = [2]) ∧
    (Field.scalar : Field UInt16).read ⟨1, [2]⟩ = (.error ⟨2, 1⟩, ⟨1, [2]⟩) ∧
    Indexed.runEvents? [⟨_, .read (α := UInt16) .scalar⟩, ⟨_, .read (.bytes 2)⟩,
        ⟨_, .reset [1, 2]⟩, ⟨_, .read (.bytes 1)⟩] ⟨[7, 8, 9], 0⟩ =
      some (answers, ⟨[1, 2], 1⟩) := by
  have hrun : runEvents [⟨_, .read (α := UInt16) .scalar⟩, ⟨_, .read (.bytes 2)⟩,
      ⟨_, .reset [1, 2]⟩, ⟨_, .read (.bytes 1)⟩] (.start [7, 8, 9]) =
    (_, ⟨[1, 2], [1], ⟨1, [2]⟩⟩) := rfl
  obtain ⟨-, hread, hfail, -, -, -, hindexed⟩ := reads_account_for_input hrun
  refine ⟨_, hrun, hread (α := Int8) .scalar (by decide), hfail (α := UInt16) .scalar (by decide),
    hindexed (by decide) ?_⟩
  simp [Operation.Addressable, UInt64.size]

end Cursor
end LightWire
