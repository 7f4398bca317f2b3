/-
# Runs of operations on a buffer

One buffer serves any operations, one after another and also after one that was
refused.  What each does to it:

| operation | answers | the buffer then holds |
| --- | --- | --- |
| `write w` | done, or why `w` is refused | what it held and the bytes of `w`, or what it held |
| `put s x` | done, or the first fault in `x` | what it held and the bytes of `x` up to the fault |
| `encode s x` | the bytes of `x`, or the first fault | nothing |
| `clear` | done | nothing |
| `flush` | what it held | nothing |

The first two only append, and what they append and answer they append to any
buffer and answer at any time; the others leave nothing behind.  So after any
history a buffer holds what was appended since it was last emptied, in order
(`bytes_after`), and of that nothing but the bytes given out depends on the
history (`runs_ignore_history`).
-/

import LightWire.Proofs.Stepwise
import Mathlib.Data.List.DropRight

namespace LightWire

/-- A single write, with what is written. -/
inductive Write : Type 1 where
  /-- A scalar as it is. -/
  | scalar {α : Type} [Scalar α] (x : α)
  /-- A truth value. -/
  | bool (b : Bool)
  /-- Whether an option holds a value. -/
  | optionTag (present : Bool)
  /-- A floating-point number. -/
  | float {p : Precision} (x : FloatBits p)
  /-- A count. -/
  | length (n : Nat)
  /-- Bytes as they are. -/
  | fixed (bs : Bytes)
  /-- A count of bytes and the bytes. -/
  | sized (bs : Bytes)
  /-- A text. -/
  | text (s : String)
  /-- An ordinal of an enumeration of a name and a count of variants. -/
  | tag (name : String) (ordinal count : Nat)
  /-- A value of an enumeration. -/
  | variant {α : Type} (e : Enumeration α) (x : α)

namespace Write

/-- The run that a single write is. -/
def put : Write → Put
  | scalar x => .scalar x
  | bool b => .bool b
  | optionTag present => .optionTag present
  | float x => .float x
  | length n => .length n
  | fixed bs => .raw bs
  | sized bs => .sized bs
  | text s => .text s
  | tag name ordinal count => .tag name ordinal count
  | variant e x => e.put x

/-- The steps of a single write. -/
def step : Write → Writer Unit
  | scalar x => .scalar x
  | bool b => .bool b
  | optionTag present => .optionTag present
  | float x => .float x
  | length n => .length n
  | fixed bs => .fixed bs
  | sized bs => .sized bs
  | text s => .text s
  | tag name ordinal count => .tag name ordinal count
  | variant e x => e.write x

/-- The steps of a single write are the run that it is. -/
theorem step_eq (w : Write) : w.step = .ofPut w.put := by
  cases w with
  | scalar x => rfl
  | bool b => exact Writer.bool_eq b
  | optionTag present => exact Writer.optionTag_eq present
  | float x => exact Writer.float_eq x
  | length n => exact Writer.length_eq n
  | fixed bs => rfl
  | sized bs => exact Writer.sized_eq bs
  | text s => exact Writer.text_eq s
  | tag name ordinal count => exact Writer.tag_eq name ordinal count
  | variant e x => exact Writer.tag_eq e.name (e.ordinal x).toNat e.count

/-- A pattern is refused that stands for no number. -/
def floatRefusal? {p : Precision} (x : FloatBits p) : Option WireError :=
  if x.isNaN then some .nanFloat else none

/-- A count is refused that does not fit four bytes. -/
def countRefusal? (n : Nat) : Option WireError :=
  if n ≤ Put.maxLength then none else some (.lengthOverflow n)

/-- A tag is refused when one byte does not tell the variants apart, and else when
it is the ordinal of none. -/
def tagRefusal? (name : String) (ordinal count : Nat) : Option WireError :=
  if Put.maxVariants < count then some (.tooManyVariants name count)
  else if ordinal < count then none
  else some (.invalidVariant name ordinal count)

/-- The cause for which a single write is refused, if it is. -/
def refusal? : Write → Option WireError
  | scalar _ => none
  | bool _ => none
  | optionTag _ => none
  | float x => floatRefusal? x
  | length n => countRefusal? n
  | fixed _ => none
  | sized bs => countRefusal? bs.length
  | text s => countRefusal? (Put.utf8 s).length
  | tag name ordinal count => tagRefusal? name ordinal count
  | variant e x => tagRefusal? e.name (e.ordinal x).toNat e.count

/-- The bytes of a single write that is not refused. -/
def bytes : Write → Bytes
  | scalar x => Scalar.toBytes x
  | bool b => [if b then 1 else 0]
  | optionTag present => [if present then 1 else 0]
  | float x => Scalar.toBytes x
  | length n => Bytes.littleEndian 4 n
  | fixed bs => bs
  | sized bs => Bytes.littleEndian 4 bs.length ++ bs
  | text s => Bytes.littleEndian 4 (Put.utf8 s).length ++ Put.utf8 s
  | tag _ ordinal _ => [UInt8.ofNat ordinal]
  | variant e x => [UInt8.ofNat (e.ordinal x).toNat]

theorem float_eq {p : Precision} (x : FloatBits p) :
    Put.float x = (floatRefusal? x).elim (.raw (Scalar.toBytes x)) .fail := by
  unfold floatRefusal? Put.float
  split
  · rfl
  · rfl

theorem length_eq (n : Nat) :
    Put.length n = (countRefusal? n).elim (.raw (Bytes.littleEndian 4 n)) .fail := by
  unfold countRefusal? Put.length
  split
  · rfl
  · rfl

theorem sized_eq (bs : Bytes) : Put.sized bs =
    (countRefusal? bs.length).elim (.raw (Bytes.littleEndian 4 bs.length ++ bs)) .fail := by
  rw [Put.sized, length_eq]
  cases countRefusal? bs.length with
  | none => rfl
  | some e => rfl

theorem tag_eq (name : String) (ordinal count : Nat) : Put.tag name ordinal count =
    (tagRefusal? name ordinal count).elim (.raw [UInt8.ofNat ordinal]) .fail := by
  unfold tagRefusal? Put.tag
  split
  · rfl
  · split
    · rfl
    · rfl

/-- **A single write appends all of its bytes or, when it is refused, nothing,** not
even a count. -/
theorem put_eq (w : Write) : w.put = w.refusal?.elim (.raw w.bytes) .fail := by
  cases w with
  | scalar x => rfl
  | bool b => rfl
  | optionTag present => rfl
  | float x => exact float_eq x
  | length n => exact length_eq n
  | fixed bs => rfl
  | sized bs => exact sized_eq bs
  | text s => exact sized_eq (Put.utf8 s)
  | tag name ordinal count => exact tag_eq name ordinal count
  | variant e x => exact tag_eq e.name (e.ordinal x).toNat e.count

end Write

namespace Buffer

/-- An operation on a buffer, by the type of what it answers. -/
inductive Operation : Type → Type 1 where
  /-- A single write. -/
  | write (w : Write) : Operation (Except WireError Unit)
  /-- Puts a value into the buffer. -/
  | put {o : Ownership} {α : Type} (s : Schema o α) (x : α) : Operation (Except WireError Unit)
  /-- Takes out the bytes of one value alone. -/
  | encode {o : Ownership} {α : Type} (s : Schema o α) (x : α) : Operation (Except WireError Bytes)
  /-- Drops what is held. -/
  | clear : Operation Unit
  /-- Takes out what is held. -/
  | flush : Operation Bytes

namespace Operation

variable {ρ : Type}

/-- What an operation answers on a buffer, and the buffer after it. -/
def run : {ρ : Type} → Operation ρ → Buffer → ρ × Buffer
  | _, write w, b => b.put w.put
  | _, put s x, b => b.put (s.encode x)
  | _, encode s x, b => b.encode (s.encode x)
  | _, clear, b => ((), b.clear)
  | _, flush, b => b.flush

/-- What an operation answers and leaves when it is done step by step, on a buffer
that may be changed in any way. -/
def step : {ρ : Type} → Operation ρ → Buffer → ρ × Buffer
  | _, write w, b => w.step b
  | _, put s x, b => s.write x b
  | _, encode s x, b => (s.write x).encode b
  | _, clear, b => ((), b.clear)
  | _, flush, b => b.flush

/-- **The steps of an operation are the operation,** whatever the buffer holds. -/
theorem step_eq_run (op : Operation ρ) : op.step = op.run := by
  cases op with
  | write w => exact w.step_eq
  | put s x => exact s.write_eq x
  | encode s x =>
    funext b
    rw [step, Schema.write_eq, Writer.encode_ofPut]
    rfl
  | clear => rfl
  | flush => rfl

/-- The operations that leave what the buffer held. -/
def appends : {ρ : Type} → Operation ρ → Bool
  | _, write _ => true
  | _, put _ _ => true
  | _, encode _ _ => false
  | _, clear => false
  | _, flush => false

/-- What an operation leaves in a buffer that held nothing. -/
def appended (op : Operation ρ) : Bytes := (op.run .empty).2.bytes

/-- **An operation that appends answers the same and appends the same** whatever
the buffer held. -/
theorem run_of_appends {op : Operation ρ} (h : op.appends = true) (b : Buffer) :
    op.run b = ((op.run .empty).1, b.append op.appended) := by
  cases op with
  | write w => rfl
  | put s x => rfl
  | encode s x => exact absurd h Bool.false_ne_true
  | clear => exact absurd h Bool.false_ne_true
  | flush => exact absurd h Bool.false_ne_true

/-- **A value is taken out as if nothing had been held,** and nothing is left. -/
theorem run_encode {o : Ownership} {α : Type} (s : Schema o α) (x : α) (b : Buffer) :
    (encode s x).run b = (s.toBytes x, .empty) :=
  encode_eq (s.encode x) b

/-- Any other operation leaves nothing. -/
theorem run_of_not_appends {op : Operation ρ} (h : op.appends = false) (b : Buffer) :
    (op.run b).2 = .empty := by
  cases op with
  | write w => exact absurd h Bool.false_ne_true.symm
  | put s x => exact absurd h Bool.false_ne_true.symm
  | encode s x => rw [run_encode]
  | clear => rfl
  | flush => rfl

/-- **A single write is refused whatever the buffer holds, or at no time,** and a
refused one leaves the buffer as it was. -/
theorem run_write (w : Write) (b : Buffer) : (write w).run b =
    w.refusal?.elim (.ok (), b.append w.bytes) fun e => (.error e, b) := by
  rw [run, Write.put_eq]
  cases w.refusal? with
  | none => rfl
  | some e => exact b.put_fail e

end Operation

/-- An operation of a history, whatever it answers. -/
abbrev Event : Type 1 := (ρ : Type) × Operation ρ

/-- A fresh buffer after a history of operations. -/
def after (history : List Event) : Buffer :=
  history.foldl (fun b event => (event.2.run b).2) .empty

/-- The operations of a history after the last that left nothing. -/
def sinceEmptied (history : List Event) : List Event :=
  history.rtakeWhile fun event => event.2.appends

/-- **After any history a buffer holds what was appended since it was last
emptied.** -/
theorem bytes_after (history : List Event) :
    (after history).bytes = (sinceEmptied history).flatMap fun event => event.2.appended := by
  induction history using List.reverseRecOn with
  | nil => rfl
  | append_singleton history event ih =>
    have hlast : after (history ++ [event]) = (event.2.run (after history)).2 := by
      rw [after, List.foldl_append]
      rfl
    rw [hlast, sinceEmptied, List.rtakeWhile_concat]
    cases h : event.2.appends with
    | true =>
      have hsince : history.rtakeWhile (fun event => event.2.appends) = sinceEmptied history := rfl
      rw [Operation.run_of_appends h, if_pos rfl, List.flatMap_append, List.flatMap_singleton,
        hsince, ← ih]
      rfl
    | false =>
      rw [Operation.run_of_not_appends h, if_neg Bool.false_ne_true]
      rfl

/-- **What an operation does on a buffer does not depend on what was done before.**
After any history, refusals included, a write and a value that is put answer what
they answer on a fresh buffer and append what they leave there, after the bytes
that were held; so a single write appends its bytes, and one that is refused
changes nothing.  A value that is taken out is given out as it is written, or
refused as it is, and nothing is left in either case; clearing leaves nothing;
and what is given out when the buffer is flushed is what was appended since it
was last emptied, in order, and nothing is left.  All of this is so of operations
that are done step by step, on a buffer that is changed on the way: they answer and
leave the same. -/
theorem runs_ignore_history (history : List Event) :
    (∀ {ρ : Type} (op : Operation ρ), op.appends = true →
      op.run (after history) =
        ((op.run .empty).1, ⟨(after history).bytes ++ (op.run .empty).2.bytes⟩)) ∧
    (∀ w : Write, (Operation.write w).run (after history) =
      w.refusal?.elim (.ok (), ⟨(after history).bytes ++ w.bytes⟩)
        fun e => (.error e, after history)) ∧
    (∀ (w : Write) (e : WireError), ((Operation.write w).run (after history)).1 = .error e →
      ((Operation.write w).run (after history)).2 = after history) ∧
    (∀ {o : Ownership} {α : Type} (s : Schema o α) (x : α),
      (Operation.encode s x).run (after history) = (s.toBytes x, .empty)) ∧
    Operation.clear.run (after history) = ((), .empty) ∧
    Operation.flush.run (after history) =
      ((sinceEmptied history).flatMap fun event => (event.2.run .empty).2.bytes, .empty) ∧
    (∀ {ρ : Type} (op : Operation ρ) (b : Buffer), op.step b = op.run b) := by
  refine ⟨fun op h => Operation.run_of_appends h _, fun w => Operation.run_write w _,
    fun w e h => ?_, fun s x => Operation.run_encode s x _, rfl, ?_,
    fun op b => congrFun op.step_eq_run b⟩
  · rw [Operation.run_write] at h ⊢
    cases hw : w.refusal? with
    | none =>
      rw [hw] at h
      exact nomatch h
    | some f => rfl
  · exact congrArg (fun bytes => (bytes, Buffer.empty)) (bytes_after history)

/-- The hypotheses are satisfiable: a text is taken out, and then a truth value, a
tag that is refused and a value with a fault after its first byte; a flush gives
out two bytes, the refused tag changes nothing and the value appends one byte
more. -/
theorem runs_ignore_two_refusals :
    Operation.flush.run (after [⟨_, .encode (o := .owned) .text "a"⟩, ⟨_, .write (.bool true)⟩,
        ⟨_, .write (.tag "t" 2 2)⟩,
        ⟨_, .put (o := .owned) (.pair .bool (.seq .unit)) (true, [()])⟩]) = ([1, 1], .empty) ∧
    ((Operation.write (.tag "t" 2 2)).run (after [⟨_, .write (.bool true)⟩])).2 =
      after [⟨_, .write (.bool true)⟩] ∧
    (Operation.put (o := .owned) (.pair .bool (.seq .unit)) (true, [()])).run
        (after [⟨_, .write (.bool true)⟩]) = (.error .zeroSizedCollection, ⟨[1, 1]⟩) := by
  obtain ⟨happends, -, hrefused, -⟩ := runs_ignore_history [⟨_, .write (.bool true)⟩]
  refine ⟨?_, hrefused (.tag "t" 2 2) _ rfl, happends _ rfl⟩
  exact (runs_ignore_history _).2.2.2.2.2.1

end Buffer
end LightWire
