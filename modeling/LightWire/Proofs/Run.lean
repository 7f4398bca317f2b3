/-
# Runs of writes

A run of writes that ended is the run that appends its bytes, `raw e`; one that
stopped keeps the bytes before the stop.  The laws below take a run apart at
`++` and at `concat`:

| run | ends with `e` when |
| --- | --- |
| `p ++ q` | `p` ends with `a`, `q` ends with `b` and `e = a ++ b` |
| `concat (p :: ps)` | `p` ends with `a`, `concat ps` with `b` and `e = a ++ b` |
| `length n` | `n` fits four bytes and `e` is the four bytes |
| `sized bs` | the length of `bs` fits and `e` is the four bytes and `bs` |
| `float x` | `x` is a number and `e` its pattern |
| `tag` | the ordinal is one of at most 256 and `e` its byte |
-/

import LightWire.Buffer
import LightWire.Codec

namespace LightWire
namespace Put

@[simp] theorem raw_inj {a b : Bytes} : raw a = raw b ↔ a = b := by
  simp [raw]

@[simp] theorem fail_ne_raw (e : WireError) (a : Bytes) : fail e ≠ raw a := by
  simp [fail, raw]

@[simp] theorem fail_append (e : WireError) (p : Put) : fail e ++ p = fail e := rfl

@[simp] theorem append_empty (p : Put) : p ++ empty = p := by
  rcases p with ⟨a, _ | e⟩
  · exact congrArg raw (List.append_nil a)
  · rfl

/-- What follows a run that ended goes on after its bytes. -/
theorem raw_append (a : Bytes) (p : Put) : raw a ++ p = ⟨a ++ p.bytes, p.error?⟩ := rfl

theorem append_assoc (p q r : Put) : p ++ q ++ r = p ++ (q ++ r) := by
  rcases p with ⟨a, _ | e⟩
  · rcases q with ⟨b, _ | e⟩
    · exact congrArg (fun bs => Put.mk bs r.error?) (List.append_assoc a b r.bytes)
    · rfl
  · rfl

/-- Bytes in a row are appended one part after another. -/
theorem raw_append_append (a b : Bytes) (p : Put) : raw (a ++ b) ++ p = raw a ++ (raw b ++ p) :=
  append_assoc (raw a) (raw b) p

/-- **Two runs in a row end when both do,** with the bytes of both. -/
theorem append_eq_raw_iff {p q : Put} {e : Bytes} :
    p ++ q = raw e ↔ ∃ a b, p = raw a ∧ q = raw b ∧ e = a ++ b := by
  constructor
  · intro h
    rcases p with ⟨a, _ | f⟩
    · rcases q with ⟨b, _ | f⟩
      · exact ⟨a, b, rfl, rfl, (raw_inj.1 h).symm⟩
      · exact absurd (congrArg error? h) (Option.some_ne_none f)
    · exact absurd (congrArg error? h) (Option.some_ne_none f)
  · rintro ⟨a, b, rfl, rfl, rfl⟩
    rfl

@[simp] theorem concat_nil : concat [] = empty := rfl

@[simp] theorem concat_cons (p : Put) (ps : List Put) : concat (p :: ps) = p ++ concat ps := rfl

theorem concat_append (ps qs : List Put) : concat (ps ++ qs) = concat ps ++ concat qs := by
  induction ps with
  | nil => rfl
  | cons p ps ih => rw [List.cons_append, concat_cons, concat_cons, ih, append_assoc]

/-- Runs of runs in order are all their writes in order. -/
theorem concat_flatMap {α : Type} (f : α → List Put) (xs : List α) :
    concat (xs.flatMap f) = concat (xs.map fun x => concat (f x)) := by
  induction xs with
  | nil => rfl
  | cons x xs ih => rw [List.flatMap_cons, concat_append, ih, List.map_cons, concat_cons]

/-- Runs in a row that ended have each ended. -/
theorem exists_of_concat_eq_raw {ps : List Put} {e : Bytes} (h : concat ps = raw e) :
    ∀ p ∈ ps, ∃ a, p = raw a := by
  induction ps generalizing e with
  | nil => exact List.forall_mem_nil _
  | cons p ps ih =>
    obtain ⟨a, b, ha, hb, -⟩ := append_eq_raw_iff.1 h
    exact List.forall_mem_cons.2 ⟨⟨a, ha⟩, ih hb⟩

/-- The bytes of a run are given out exactly when it ended. -/
theorem toExcept_eq_ok_iff {p : Put} {e : Bytes} : p.toExcept = .ok e ↔ p = raw e := by
  rcases p with ⟨a, _ | f⟩ <;> simp [toExcept, raw]

theorem toExcept_eq_error_iff {p : Put} {e : WireError} :
    p.toExcept = .error e ↔ p.error? = some e := by
  rcases p with ⟨a, _ | f⟩ <;> simp [toExcept]

theorem empty_eq_raw_iff {e : Bytes} : empty = raw e ↔ e = [] := by
  rw [empty, raw_inj, eq_comm]

theorem length_eq_raw_iff {n : Nat} {e : Bytes} :
    length n = raw e ↔ n ≤ maxLength ∧ e = Bytes.littleEndian 4 n := by
  unfold length
  split
  · simp [*, eq_comm]
  · simp [*]

theorem sized_eq_raw_iff {bs e : Bytes} :
    sized bs = raw e ↔ bs.length ≤ maxLength ∧ e = Bytes.littleEndian 4 bs.length ++ bs := by
  rw [sized, append_eq_raw_iff]
  constructor
  · rintro ⟨a, b, ha, hb, rfl⟩
    obtain ⟨hn, rfl⟩ := length_eq_raw_iff.1 ha
    exact ⟨hn, by rw [raw_inj.1 hb]⟩
  · rintro ⟨hn, rfl⟩
    exact ⟨_, bs, length_eq_raw_iff.2 ⟨hn, rfl⟩, rfl, rfl⟩

theorem float_eq_raw_iff {p : Precision} {x : FloatBits p} {e : Bytes} :
    float x = raw e ↔ x.isNaN = false ∧ e = Scalar.toBytes x := by
  unfold float
  split
  · simp [*]
  · simp [*, scalar, eq_comm]

/-- An ordinal is written when one byte tells the variants apart and it is the
ordinal of one of them. -/
theorem tag_eq_raw_iff {name : String} {ordinal count : Nat} {e : Bytes} :
    tag name ordinal count = raw e ↔
      count ≤ maxVariants ∧ ordinal < count ∧ e = [UInt8.ofNat ordinal] := by
  unfold tag
  split
  · simp [Nat.not_le.2 ‹_›]
  · split
    · simp [*, Nat.not_lt.1 ‹¬ maxVariants < count›, eq_comm]
    · simp [*]

end Put

namespace Buffer

/-- **A run that ends appends its bytes and nothing else.** -/
theorem put_raw (bs : Bytes) (b : Buffer) : b.put (.raw bs) = (.ok (), b.append bs) := rfl

/-- A run that stops at once leaves the buffer as it was. -/
theorem put_fail (e : WireError) (b : Buffer) : b.put (.fail e) = (.error e, b) :=
  congrArg (Prod.mk _) b.append_nil

/-- A run that stops leaves the bytes before the stop. -/
theorem put_eq_ok_iff {p : Put} {b b' : Buffer} :
    b.put p = (.ok (), b') ↔ ∃ e, p = .raw e ∧ b' = b.append e := by
  rcases p with ⟨a, _ | f⟩
  · simp [put, Put.toExcept, Except.map, Put.raw, eq_comm]
  · simp [put, Put.toExcept, Except.map, Put.raw]

/-- **Two runs in a row append one after the other,** the second unless the first
one stopped. -/
theorem put_append (p q : Put) (b : Buffer) :
    b.put (p ++ q) = match b.put p with
      | (.ok (), b') => b'.put q
      | (.error e, b') => (.error e, b') := by
  rcases p with ⟨a, _ | e⟩
  · have hbytes := (b.append_append a q.bytes).symm
    rcases q with ⟨c, _ | e⟩
    · exact congrArg (Prod.mk _) hbytes
    · exact congrArg (Prod.mk _) hbytes
  · rfl

/-- **What was held before does not matter to the bytes of one run alone,** and
none of it is left. -/
theorem encode_eq (p : Put) (b : Buffer) : b.encode p = (p.toExcept, .empty) := by
  rcases p with ⟨a, _ | e⟩
  · rfl
  · rfl

end Buffer

namespace Enumeration

variable {α : Type} {e : Enumeration α}

/-- A lawful table has each value at the place of its ordinal. -/
theorem Lawful.getElem?_ordinal (h : e.Lawful) (x : α) :
    e.variants[(e.ordinal x).toNat]? = some x := by
  obtain ⟨i, hi, rfl⟩ := List.getElem_of_mem (h.mem_variants x)
  rw [h.ordinal_getElem i hi, List.getElem?_eq_getElem hi]

theorem Lawful.ordinal_lt (h : e.Lawful) (x : α) : (e.ordinal x).toNat < e.count :=
  (List.getElem?_eq_some_iff.1 (h.getElem?_ordinal x)).1

/-- A lawful table has a value for each ordinal that a tag can give. -/
theorem Lawful.ofOrdinal?_eq_some (h : e.Lawful) (i : Fin e.count) :
    e.ofOrdinal? (UInt8.ofNat i.val) = some (e.variants.get i) := by
  rw [h.ofOrdinal?_eq, UInt8.toNat_ofNat_of_lt' (Nat.lt_of_lt_of_le i.isLt h.count_le)]
  exact List.getElem?_eq_getElem i.isLt

/-- **A value of a lawful table is always written,** as its ordinal. -/
theorem Lawful.put_eq (h : e.Lawful) (x : α) : e.put x = .raw [e.ordinal x] := by
  rw [put, Put.tag_eq_raw_iff, UInt8.ofNat_toNat]
  exact ⟨h.count_le, h.ordinal_lt x, rfl⟩

end Enumeration
end LightWire
