/-
# Runs of operations on a decoder

One decoder serves any reads, one after another and also after one that failed,
and it may be set to the beginning of another input in between.  What each does to
its cursor:

| operation | the cursor then |
| --- | --- |
| `read r` | stays or goes on, up to the end of the input at most |
| `finish` | stays |
| `reset data` | is at the beginning of `data` |

So after any history a decoder is at a place in the input that it was set to last
(`exists_runEvents`), and from a reset on it does what a new decoder does.

What a read does at a place depends on what the input goes on with there, and not
on the place: a cursor that says that more bytes were taken is left as many bytes
further on, and all else is the same (`Sequential.apply_shift`).
-/

import LightWire.Proofs.Sequential

namespace LightWire

/-! ### The same bytes at another place -/

/-- The same bytes left, and `p` more bytes taken. -/
def Cursor.shift (c : Cursor) (p : Nat) : Cursor := ⟨p + c.position, c.rest⟩

theorem Cursor.advance_shift (c : Cursor) (p k : Nat) :
    (c.shift p).advance k = (c.advance k).shift p := by
  simp only [advance, shift, Nat.add_assoc]

/-- A place in an input is a place further on in an input that ends with it. -/
theorem Cursor.shift_seek (x y : Bytes) (j : Nat) :
    (seek y j).shift x.length = seek (x ++ y) (x.length + j) := by
  rw [seek, seek, List.drop_length_add_append, shift]

/-- The same bytes can be taken at any place. -/
theorem Cursor.take_shift (n : Nat) (c : Cursor) (p : Nat) :
    (c.shift p).take n = ((c.take n).1, (c.take n).2.shift p) := by
  by_cases h : n ≤ c.size
  · have hshift : n ≤ (c.shift p).size := h
    rw [take_of_le h, take_of_le hshift, advance_shift]
    rfl
  · have hshift : (c.shift p).size < n := Nat.not_le.1 h
    rw [take_of_lt (Nat.not_le.1 h), take_of_lt hshift]
    rfl

/-- **A read does not look at how many bytes were taken before it.** -/
theorem Get.Sequential.apply_shift {α : Type} {g : Get α} (h : g.Sequential) (maxLen : Nat)
    (c : Cursor) (p : Nat) : g maxLen (c.shift p) = ((g maxLen c).1, (g maxLen c).2.shift p) := by
  induction h generalizing c with
  | pure x => rfl
  | fail e => rfl
  | raw n =>
    unfold Get.raw ofCursor
    rw [Cursor.take_shift]
    rcases c.take n with ⟨_ | _, c'⟩
    · rfl
    · rfl
  | within n =>
    unfold Get.within
    split
    · rfl
    · rfl
  | @bind _ _ g f hg hf ihg ihf =>
    rw [bind_apply, bind_apply, ihg c]
    rcases g maxLen c with ⟨e | x, c'⟩
    · rfl
    · exact ihf x c'

/-- **What is read at a place in an input is what is read of the rest of it
alone,** with the cursor left as far on. -/
theorem Get.Sequential.exists_run_append {α : Type} {g : Get α} (h : g.Sequential)
    (options : Options) (x y : Bytes) :
    ∃ r k, k ≤ y.length ∧ (Decoder.ofBytes options y).run g = (r, ⟨options, .seek y k⟩) ∧
      (⟨options, .seek (x ++ y) x.length⟩ : Decoder).run g =
        (r, ⟨options, .seek (x ++ y) (x.length + k)⟩) := by
  obtain ⟨r, k, hk, halone⟩ := h.exists_seek options.maxLen y 0
  have hwithin := h.apply_shift options.maxLen (.seek y 0) x.length
  rw [halone, Cursor.shift_seek, Cursor.shift_seek] at hwithin
  rw [Nat.zero_add] at halone hwithin
  exact ⟨r, k, hk, Decoder.run_of_eq halone, Decoder.run_of_eq hwithin⟩

/-! ### Operations -/

/-- A single read or that of a value, by the type of what it gives. -/
inductive Read : Type → Type 1 where
  /-- A scalar as it is. -/
  | scalar {α : Type} [Scalar α] : Read α
  /-- A truth value. -/
  | bool : Read Bool
  /-- Whether an option holds a value. -/
  | optionTag : Read Bool
  /-- A floating-point number. -/
  | float (p : Precision) : Read (FloatBits p)
  /-- A count. -/
  | length : Read Nat
  /-- Bytes as they are. -/
  | fixed (n : Nat) : Read (Vector UInt8 n)
  /-- A count of bytes and the bytes. -/
  | sized : Read Bytes
  /-- A text. -/
  | text : Read String
  /-- An ordinal of an enumeration of a name and a count of variants. -/
  | tag (name : String) (count : Nat) : Read (Fin count)
  /-- A value of an enumeration. -/
  | variant {α : Type} (e : Enumeration α) : Read α
  /-- A value of a schema. -/
  | value {α : Type} (s : Schema .owned α) : Read α

namespace Read

/-- What a read does. -/
def get : {α : Type} → Read α → Get α
  | _, scalar => Get.scalar
  | _, bool => Get.bool
  | _, optionTag => Get.optionTag
  | _, float p => Get.float p
  | _, length => Get.length
  | _, fixed n => Get.raw n
  | _, sized => Get.sized
  | _, text => Get.text
  | _, tag name count => Get.tag name count
  | _, variant e => e.get
  | _, value s => s.decode

/-- **Every read sees only what it takes.** -/
theorem sequential_get {α : Type} (r : Read α) : r.get.Sequential := by
  cases r with
  | scalar => exact Get.sequential_scalar
  | bool => exact Get.sequential_flag _
  | optionTag => exact Get.sequential_flag _
  | float p => exact Get.sequential_float p
  | length => exact Get.sequential_length
  | fixed n => exact .raw n
  | sized => exact Get.sequential_sized
  | text => exact Get.sequential_text
  | tag name count => exact Get.sequential_tag name count
  | variant e => exact Get.sequential_enumeration e
  | value s => exact s.sequential_decode

end Read

namespace Decoder

/-- An operation on a decoder, by the type of what it answers. -/
inductive Operation : Type → Type 1 where
  /-- A read. -/
  | read {α : Type} (r : Read α) : Operation (Except WireError α)
  /-- Refuses bytes left, unless they are allowed. -/
  | finish : Operation (Except WireError Unit)
  /-- Goes to the beginning of an input. -/
  | reset (data : Bytes) : Operation Unit

namespace Operation

/-- What an operation answers on a decoder, and the decoder after it. -/
def run : {ρ : Type} → Operation ρ → Decoder → ρ × Decoder
  | _, read r, d => d.run r.get
  | _, finish, d => (d.finish, d)
  | _, reset data, d => ((), d.reset data)

/-- The input after an operation. -/
def input : {ρ : Type} → Operation ρ → Bytes → Bytes
  | _, read _, data => data
  | _, finish, data => data
  | _, reset data, _ => data

/-- The operations that stay in the input. -/
def stays : {ρ : Type} → Operation ρ → Bool
  | _, read _ => true
  | _, finish => true
  | _, reset _ => false

end Operation

/-- An operation of a history, whatever it answers. -/
abbrev Event : Type 1 := (ρ : Type) × Operation ρ

/-- What an operation of a history answered. -/
abbrev Answer : Type 1 := (ρ : Type) × ρ

/-- What operations in a row answer, and the decoder after them. -/
def runEvents : List Event → Decoder → List Answer × Decoder
  | [], d => ([], d)
  | event :: events, d =>
    let first := event.2.run d
    let rest := runEvents events first.2
    (⟨event.1, first.1⟩ :: rest.1, rest.2)

/-- The input after operations in a row: the last that a decoder was set to. -/
def inputAfter (events : List Event) (data : Bytes) : Bytes :=
  events.foldl (fun data event => event.2.input data) data

namespace Operation

/-- **An operation leaves a decoder at a place in its input,** and further on unless
it changes the input. -/
theorem exists_run {ρ : Type} (op : Operation ρ) (options : Options) {data : Bytes} {p : Nat}
    (h : p ≤ data.length) : ∃ a q, (op.stays = true → p ≤ q) ∧ q ≤ (op.input data).length ∧
      op.run ⟨options, .seek data p⟩ = (a, ⟨options, .seek (op.input data) q⟩) := by
  cases op with
  | read r =>
    obtain ⟨a, k, hk, hrun⟩ := r.sequential_get.exists_seek options.maxLen data p
    have hend : p + k ≤ data.length := by omega
    exact ⟨a, p + k, fun _ => Nat.le_add_right p k, hend, run_of_eq hrun⟩
  | finish => exact ⟨_, p, fun _ => Nat.le_refl p, h, rfl⟩
  | reset data => exact ⟨(), 0, fun _ => absurd ‹_› Bool.false_ne_true, Nat.zero_le _, rfl⟩

end Operation

/-- **Operations in a row leave a decoder at a place in its last input,** with the
options that it was given. -/
theorem exists_runEvents (events : List Event) (options : Options) {data : Bytes} {p : Nat}
    (h : p ≤ data.length) : ∃ answers q, q ≤ (inputAfter events data).length ∧
      runEvents events ⟨options, .seek data p⟩ =
        (answers, ⟨options, .seek (inputAfter events data) q⟩) := by
  induction events generalizing data p with
  | nil => exact ⟨[], p, h, rfl⟩
  | cons event events ih =>
    obtain ⟨a, q, -, hq, hfirst⟩ := event.2.exists_run options h
    obtain ⟨answers, q', hq', hrest⟩ := ih hq
    refine ⟨⟨event.1, a⟩ :: answers, q', hq', ?_⟩
    rw [runEvents, hfirst]
    simp only [hrest]
    rfl

/-- What operations in a row do, they do from where those before them left off. -/
theorem runEvents_append (events more : List Event) (d : Decoder) :
    runEvents (events ++ more) d =
      ((runEvents events d).1 ++ (runEvents more (runEvents events d).2).1,
        (runEvents more (runEvents events d).2).2) := by
  induction events generalizing d with
  | nil => rfl
  | cons event events ih =>
    rw [List.cons_append, runEvents, ih]
    rfl

/-- **Reading is local to the cursor.**  A value of any schema is read at a place in
an input as it is read of the rest of the input alone, or refused for the same
cause, and the cursor is left as many bytes further on.  After any operations on a
decoder, refusals included, its options are those that it was given and its
cursor is at a place in the input that it was set to last; no operation but a
reset takes the cursor back; and whatever is done after a reset is answered as by
a new decoder with the same options, which it leaves at the same place. -/
theorem decoding_is_local (options : Options) :
    (∀ {α : Type} (s : Schema .owned α) (x y : Bytes), ∃ r k, k ≤ y.length ∧
      (ofBytes options y).run s.decode = (r, ⟨options, .seek y k⟩) ∧
      (⟨options, .seek (x ++ y) x.length⟩ : Decoder).run s.decode =
        (r, ⟨options, .seek (x ++ y) (x.length + k)⟩)) ∧
    (∀ (data : Bytes) (history : List Event), ∃ q, q ≤ (inputAfter history data).length ∧
      (runEvents history (ofBytes options data)).2 =
        ⟨options, .seek (inputAfter history data) q⟩ ∧
      ∀ {ρ : Type} (op : Operation ρ), op.stays = true →
        q ≤ (op.run (runEvents history (ofBytes options data)).2).2.cursor.position) ∧
    (∀ (data next : Bytes) (history further : List Event),
      runEvents (history ++ ⟨_, .reset next⟩ :: further) (ofBytes options data) =
        ((runEvents history (ofBytes options data)).1 ++
          ⟨Unit, ()⟩ :: (runEvents further (ofBytes options next)).1,
        (runEvents further (ofBytes options next)).2)) := by
  have hhistory : ∀ (data : Bytes) (history : List Event), ∃ answers q,
      q ≤ (inputAfter history data).length ∧ runEvents history (ofBytes options data) =
        (answers, ⟨options, .seek (inputAfter history data) q⟩) := fun data history =>
    exists_runEvents history options (Nat.zero_le data.length)
  refine ⟨fun s x y => s.sequential_decode.exists_run_append options x y,
    fun data history => ?_, fun data next history further => ?_⟩
  · obtain ⟨answers, q, hq, hrun⟩ := hhistory data history
    rw [hrun]
    refine ⟨q, hq, rfl, fun op hop => ?_⟩
    obtain ⟨a, q', hforward, -, hnext⟩ := op.exists_run options hq
    rw [hnext]
    exact hforward hop
  · obtain ⟨answers, q, -, hrun⟩ := hhistory data history
    rw [runEvents_append, hrun]
    rfl

/-- The hypotheses are satisfiable: a truth value that is refused leaves the cursor
after its byte, and a second one does not take it back; after a reset a text is
read as by a new decoder. -/
theorem decoding_is_local_after_refusal :
    1 ≤ ((Operation.read .bool).run
      (runEvents [⟨_, .read .bool⟩] (ofBytes {} [7, 8])).2).2.cursor.position ∧
    (runEvents ([⟨_, .read .bool⟩] ++ ⟨_, .reset [1, 0, 0, 0, 97]⟩ :: [⟨_, .read .text⟩])
        (ofBytes {} [7, 8])).2 =
      (runEvents [⟨_, .read .text⟩] (ofBytes {} [1, 0, 0, 0, 97])).2 := by
  obtain ⟨-, hplace, hreset⟩ := decoding_is_local {}
  obtain ⟨q, -, hrun, hforward⟩ := hplace [7, 8] [⟨_, .read .bool⟩]
  obtain rfl : 1 = q := congrArg (fun d => d.cursor.position) hrun
  refine ⟨hforward (.read .bool) rfl, ?_⟩
  have hruns := hreset [7, 8] [1, 0, 0, 0, 97] [⟨_, .read .bool⟩] [⟨_, .read .text⟩]
  rw [hruns]

end Decoder
end LightWire
