/-
# Writes and the reads that match them

A single write is matched by a read that gives back what was written.  The two share
what the bytes do not tell:

| write | read | gives |
| --- | --- | --- |
| `fixed bs` | `fixed bs.length` | `bs` |
| `tag name i n` | `tag name' n` | `i` |
| `variant t x` | `tag name' t.count` | the ordinal of `x` |
| | `variant t`, if `t` is lawful | `x` |
| any other | that of its kind | what was written |

So writes in a row that all end are read back by matching reads in a row, under a limit
that no count is above, and these come out at the end of the bytes
(`Write.runEvents_of_concat`).  A read that fails, wherever and after whatever reads,
leaves the cursor as its `Stop` says (`Read.stops_get`).
-/

import LightWire.Proofs.BufferRuns
import LightWire.Proofs.Bytewise
import LightWire.Proofs.DecoderRuns
import LightWire.Proofs.Stops
import LightWire.Proofs.Stream

namespace LightWire

/-! ### Reads that match writes -/

/-- A single read and what it is to give. -/
structure Reply : Type 1 where
  /-- The type of the value. -/
  type : Type
  /-- The read. -/
  read : Read type
  /-- The value. -/
  value : type

namespace Reply

/-- The read as an operation of a history. -/
def event (r : Reply) : Decoder.Event := ⟨_, .read r.read⟩

/-- The value as what an operation of a history answered. -/
def answer (r : Reply) : Decoder.Answer := ⟨Except WireError r.type, .ok r.value⟩

end Reply

/-- An ordinal is read from the byte that is written of it, under any name. -/
theorem Get.tag_of_put {name name' : String} {ordinal count : Nat} {e : Bytes}
    (h : ordinal < count) (he : Put.tag name ordinal count = .raw e) (m p : Nat) (rest : Bytes) :
    tag name' count m ⟨p, e ++ rest⟩ = (.ok ⟨ordinal, h⟩, ⟨p + e.length, rest⟩) := by
  obtain ⟨hcount, -, rfl⟩ := Put.tag_eq_raw_iff.1 he
  exact (accepts_tag_byte name' count _ _ _ _).2 ⟨_, rest, ⟨hcount, rfl⟩, rfl, rfl⟩

namespace Write

/-- The counts that a write puts before what they count. -/
def lengths : Write → List Nat
  | scalar _ => []
  | bool _ => []
  | optionTag _ => []
  | float _ => []
  | length n => [n]
  | fixed _ => []
  | sized bs => [bs.length]
  | text s => [(Put.utf8 s).length]
  | tag _ _ _ => []
  | variant _ _ => []

/-- The reads that match a write, each with what it is to give.  The name of an
enumeration is only there for errors, so the two sides may name it differently. -/
inductive Mirrors : Write → Reply → Prop
  | scalar {α : Type} [Scalar α] (x : α) : Mirrors (.scalar x) ⟨α, .scalar, x⟩
  | bool (b : Bool) : Mirrors (.bool b) ⟨_, .bool, b⟩
  | optionTag (present : Bool) : Mirrors (.optionTag present) ⟨_, .optionTag, present⟩
  | float {p : Precision} (x : FloatBits p) : Mirrors (.float x) ⟨_, .float p, x⟩
  | length (n : Nat) : Mirrors (.length n) ⟨_, .length, n⟩
  | fixed (bs : Bytes) : Mirrors (.fixed bs) ⟨_, .fixed bs.length, ⟨bs.toArray, rfl⟩⟩
  | sized (bs : Bytes) : Mirrors (.sized bs) ⟨_, .sized, bs⟩
  | text (s : String) : Mirrors (.text s) ⟨_, .text, s⟩
  | tag (name name' : String) {ordinal count : Nat} (h : ordinal < count) :
    Mirrors (.tag name ordinal count) ⟨_, .tag name' count, ⟨ordinal, h⟩⟩
  | ordinal {α : Type} (t : Enumeration α) (x : α) (name : String)
    (h : (t.ordinal x).toNat < t.count) :
    Mirrors (.variant t x) ⟨_, .tag name t.count, ⟨(t.ordinal x).toNat, h⟩⟩
  | variant {α : Type} {t : Enumeration α} (h : t.Lawful) (x : α) :
    Mirrors (.variant t x) ⟨α, .variant t, x⟩

/-- Every write that ends has a read that matches it. -/
theorem exists_mirrors {w : Write} {e : Bytes} (h : w.put = .raw e) : ∃ r, w.Mirrors r := by
  cases w with
  | scalar x => exact ⟨_, .scalar x⟩
  | bool b => exact ⟨_, .bool b⟩
  | optionTag present => exact ⟨_, .optionTag present⟩
  | float x => exact ⟨_, .float x⟩
  | length n => exact ⟨_, .length n⟩
  | fixed bs => exact ⟨_, .fixed bs⟩
  | sized bs => exact ⟨_, .sized bs⟩
  | text s => exact ⟨_, .text s⟩
  | tag name ordinal count =>
    obtain ⟨-, hordinal, -⟩ := Put.tag_eq_raw_iff.1 h
    exact ⟨_, .tag name name hordinal⟩
  | variant t x =>
    obtain ⟨-, hordinal, -⟩ := Put.tag_eq_raw_iff.1 h
    exact ⟨_, .ordinal t x t.name hordinal⟩

/-- **A matching read gives what was written,** from any place and whatever follows. -/
theorem Mirrors.get_of_put {w : Write} {r : Reply} (h : w.Mirrors r) {e : Bytes}
    (he : w.put = .raw e) {m : Nat} (hn : ∀ n ∈ w.lengths, n ≤ m) (p : Nat) (rest : Bytes) :
    r.read.get m ⟨p, e ++ rest⟩ = (.ok r.value, ⟨p + e.length, rest⟩) := by
  cases h with
  | scalar x =>
    exact (Get.accepts_scalar p _ x _).2 ⟨e, rest, (congrArg Put.bytes he).symm, rfl, rfl⟩
  | bool b => exact (Get.accepts_flag _ p _ b _).2 ⟨e, rest, he, rfl, rfl⟩
  | optionTag present => exact (Get.accepts_flag _ p _ present _).2 ⟨e, rest, he, rfl, rfl⟩
  | float x => exact (Get.accepts_float _ p _ x _).2 ⟨e, rest, he, rfl, rfl⟩
  | length n =>
    exact (Get.accepts_length p _ n _).2 ⟨e, rest, ⟨hn n (.head _), he⟩, rfl, rfl⟩
  | fixed bs =>
    exact (Get.accepts_raw bs.length p _ _ _).2 ⟨e, rest, (congrArg Put.bytes he).symm, rfl, rfl⟩
  | sized bs =>
    exact (Get.accepts_sized p _ bs _).2 ⟨e, rest, ⟨hn _ (.head _), he⟩, rfl, rfl⟩
  | text s => exact (Get.accepts_text p _ s _).2 ⟨e, rest, ⟨hn _ (.head _), he⟩, rfl, rfl⟩
  | tag name name' h => exact Get.tag_of_put h he m p rest
  | ordinal t x name h => exact Get.tag_of_put h he m p rest
  | variant h x => exact (Get.accepts_enumeration h p _ x _).2 ⟨e, rest, he, rfl, rfl⟩

/-! ### Runs of matching calls -/

/-- Every run of writes that end has a run of reads that match them. -/
theorem exists_replies {ws : List Write} {e : Bytes} (h : Put.concat (ws.map put) = .raw e) :
    ∃ rs, List.Forall₂ Mirrors ws rs := by
  induction ws generalizing e with
  | nil => exact ⟨[], .nil⟩
  | cons w ws ih =>
    obtain ⟨a, b, ha, hb, -⟩ := Put.append_eq_raw_iff.1 h
    obtain ⟨r, hr⟩ := exists_mirrors ha
    obtain ⟨rs, hrs⟩ := ih hb
    exact ⟨r :: rs, .cons hr hrs⟩

/-- **Matching reads in a row give what was written in a row,** from any place and
whatever follows. -/
theorem runEvents_of_concat {ws : List Write} {rs : List Reply} (h : List.Forall₂ Mirrors ws rs)
    {options : Options} {e : Bytes} (he : Put.concat (ws.map put) = .raw e)
    (hn : ∀ w ∈ ws, ∀ n ∈ w.lengths, n ≤ options.maxLen) (p : Nat) (rest : Bytes) :
    Decoder.runEvents (rs.map Reply.event) ⟨options, ⟨p, e ++ rest⟩⟩ =
      (rs.map Reply.answer, ⟨options, ⟨p + e.length, rest⟩⟩) := by
  induction h generalizing e p with
  | nil =>
    obtain rfl := Put.empty_eq_raw_iff.1 he
    rfl
  | @cons w r ws rs hr _ ih =>
    obtain ⟨a, b, ha, hb, rfl⟩ := Put.append_eq_raw_iff.1 he
    obtain ⟨hw, hws⟩ := List.forall_mem_cons.1 hn
    have hfirst : (Decoder.Operation.read r.read).run ⟨options, ⟨p, a ++ (b ++ rest)⟩⟩ =
        (.ok r.value, ⟨options, ⟨p + a.length, b ++ rest⟩⟩) :=
      Decoder.run_of_eq (hr.get_of_put ha hw p (b ++ rest))
    rw [List.map_cons, List.append_assoc, Decoder.runEvents, Reply.event]
    simp only [hfirst, ih hb hws, List.length_append, Nat.add_assoc]
    rfl

end Write

/-! ### Calls that fail -/

namespace Read

/-- How a single read stops under a limit on counts; the read of a value of a schema is
put together from single ones. -/
def stop? : {α : Type} → Read α → (maxLen : Nat) → Option Stop
  | _, @scalar α _, _ => some (.short (Scalar.size α))
  | _, bool, _ => some (.flag .invalidBool)
  | _, optionTag, _ => some (.flag .invalidOption)
  | _, float p, _ => some (.float p)
  | _, length, maxLen => some (.length maxLen)
  | _, fixed n, _ => some (.short n)
  | _, sized, maxLen => some (.sized maxLen)
  | _, text, maxLen => some (.text maxLen)
  | _, tag name count, _ => some (.tag name count)
  | _, variant t, _ => some (.variant t)
  | _, value _, _ => none

/-- **Every single read stops as its `Stop` says.** -/
theorem stops_get {α : Type} {r : Read α} {m : Nat} {F : Stop} (h : r.stop? m = some F) :
    r.get.Stops m F := by
  cases r with
  | scalar => exact Option.some.inj h ▸ Get.stops_scalar
  | bool => exact Option.some.inj h ▸ Get.stops_flag _
  | optionTag => exact Option.some.inj h ▸ Get.stops_flag _
  | float p => exact Option.some.inj h ▸ Get.stops_float p
  | length => exact Option.some.inj h ▸ Get.stops_length
  | fixed n => exact Option.some.inj h ▸ Get.stops_raw n
  | sized => exact Option.some.inj h ▸ Get.stops_sized
  | text => exact Option.some.inj h ▸ Get.stops_text
  | tag name count => exact Option.some.inj h ▸ Get.stops_tag name count
  | variant t => exact Option.some.inj h ▸ Get.stops_enumeration t
  | value s => exact nomatch h

end Read

namespace Decoder

/-- A decoder stops where its read does. -/
theorem run_eq_error_iff {α : Type} {g : Get α} {d d' : Decoder} {F : Stop} {e : WireError}
    (h : g.Stops d.options.maxLen F) :
    d.run g = (.error e, d') ↔ ∃ k, F d.cursor.rest e k ∧ d' = d.advance k := by
  rw [run_eq_iff, h]
  constructor
  · rintro ⟨⟨k, hF, hc⟩, hd'⟩
    exact ⟨k, hF, hd'.trans (congrArg (Decoder.mk d.options) hc)⟩
  · rintro ⟨k, hF, rfl⟩
    exact ⟨⟨k, hF, rfl⟩, rfl⟩

/-- **Calls that write are undone by the calls that match them, and a call that fails is
answered in one place only.**  Whatever single writes are made in a row on an empty
buffer, if all of them end there are reads that match them, and any that do, made in the
same order on the bytes of the buffer under a limit that no count is above, give what was
written; nothing is left then and the decoder is at its end.  And in any state of a
decoder a single read fails exactly as its `Stop` says: for this cause, with the cursor
as many bytes further on, and with the same options. -/
theorem calls_are_mirrored (options : Options) :
    (∀ (ws : List Write) (b : Buffer), Buffer.empty.putAll (ws.map Write.put) = (.ok (), b) →
      (∀ w ∈ ws, ∀ n ∈ w.lengths, n ≤ options.maxLen) →
        (∃ rs, List.Forall₂ Write.Mirrors ws rs) ∧
        ∀ rs, List.Forall₂ Write.Mirrors ws rs →
          ∃ d, runEvents (rs.map Reply.event) (ofBytes options b.flush.1) =
              (rs.map Reply.answer, d) ∧
            d.remaining = 0 ∧ d.finish = .ok ()) ∧
    (∀ {α : Type} (r : Read α) (d : Decoder) (F : Stop), r.stop? d.options.maxLen = some F →
      ∀ (e : WireError) (d' : Decoder), (Operation.read r).run d = (.error e, d') ↔
        ∃ k, F d.cursor.rest e k ∧ d' = d.advance k) := by
  refine ⟨fun ws b h hn => ?_, fun r d F hF e d' => run_eq_error_iff (Read.stops_get hF)⟩
  rw [Buffer.putAll_eq, Buffer.put_eq_ok_iff] at h
  obtain ⟨e, he, rfl⟩ := h
  refine ⟨Write.exists_replies he, fun rs hrs => ?_⟩
  have hrun := Write.runEvents_of_concat hrs he hn 0 []
  rw [List.append_nil] at hrun
  exact ⟨_, hrun, rfl, rfl⟩

/-- The hypotheses are satisfiable: a tag, a text and two bytes are read back, the tag under
another name, and the text from a place where its two bytes are not UTF-8 is refused six
bytes further on. -/
theorem calls_are_mirrored_tag_text_fixed :
    (∃ d, runEvents [⟨_, .read (.tag "u" 2)⟩, ⟨_, .read .text⟩, ⟨_, .read (.fixed 2)⟩]
        (ofBytes ⟨2, false⟩ [1, 2, 0, 0, 0, 195, 169, 7, 8]) =
          ([⟨Except WireError (Fin 2), .ok 1⟩, ⟨Except WireError String, .ok "é"⟩,
            ⟨Except WireError (Vector UInt8 2), .ok #v[7, 8]⟩], d) ∧
        d.remaining = 0 ∧ d.finish = .ok ()) ∧
    (Operation.read .text).run ⟨{}, ⟨3, [2, 0, 0, 0, 255, 254, 9]⟩⟩ =
      (.error .invalidUtf8, ⟨{}, ⟨9, [9]⟩⟩) := by
  obtain ⟨hmirror, hstop⟩ := calls_are_mirrored ⟨2, false⟩
  have hcalls := (hmirror [.tag "t" 1 2, .text "é", .fixed [7, 8]]
    ⟨[1, 2, 0, 0, 0, 195, 169, 7, 8]⟩ rfl (by decide)).2 _
    (.cons (.tag "t" "u" (by decide)) (.cons (.text "é") (.cons (.fixed [7, 8]) .nil)))
  refine ⟨hcalls, (hstop .text _ _ rfl _ _).2 ⟨6, .inr ⟨[255, 254], [9], ?_⟩, rfl⟩⟩
  exact ⟨by decide, rfl, by decide, by decide, rfl, rfl⟩

end Decoder
end LightWire
