/-
# Progress and elements that take no room

A sequence is read by as many reads of an element as its count says, and the
count may say anything that four bytes can.  What the reads cost is bounded by
the input all the same:

| elements | form of each | a count above zero |
| --- | --- | --- |
| that take no room | nothing | is refused before any element is begun |
| that take room | at least one byte | is refused once the bytes are used up |

The reader tells the two rows apart by the room that elements take, and the
bound needs to know what is written of them.  Both are the same
(`zeroSized_iff`): a schema that takes no room is written as nothing, and in one
that takes room every form has a byte.  So each element that is read uses up some
of the input (`progresses_decode`), and the elements begun are at most the bytes
that follow the count and one more, which meets the end.

The readers of types look at the memory that elements take.  The two would differ
for a sole variant without other content, whose ordinal is written but not held; no
type of the library has one (`memoryless_iff`).
-/

import LightWire.Proofs.Layout
import LightWire.Proofs.RoundTrip
import Mathlib.Algebra.BigOperators.Group.List.Basic

namespace LightWire

namespace Get

variable {α : Type} {m : Nat}

/-- Whenever a value is read, at least one byte is taken. -/
def Progresses (g : Get α) (m : Nat) : Prop :=
  ∀ c x c', g m c = (.ok x, c') → c'.size < c.size

/-- How many of `n` reads one by one are begun: the next one after each that
succeeds, and none after one that fails. -/
def begun (g : Get α) : (n maxLen : Nat) → Cursor → Nat
  | 0, _, _ => 0
  | n + 1, maxLen, c =>
    match g maxLen c with
    | (.ok _, c') => g.begun n maxLen c' + 1
    | (.error _, _) => 1

/-- A read is begun when it is one of the `n` and all reads before it succeed. -/
theorem lt_begun_iff {g : Get α} {n i : Nat} {c : Cursor} :
    i < g.begun n m c ↔ i < n ∧ ∃ xs c', replicate g i m c = (.ok xs, c') := by
  induction n generalizing i c with
  | zero => simp [begun]
  | succ n ih =>
    cases i with
    | zero =>
      have hpos : 0 < g.begun (n + 1) m c := by
        unfold begun
        split
        · exact Nat.succ_pos _
        · exact Nat.one_pos
      exact iff_of_true hpos ⟨Nat.succ_pos n, ⟨[], rfl⟩, c, rfl⟩
    | succ i =>
      simp only [begun, replicate, bind_apply]
      rcases g m c with ⟨e | x, c'⟩
      · simp
      · simp only [Nat.add_lt_add_iff_right, ih]
        refine and_congr_right fun _ => ?_
        rcases replicate g i m c' with ⟨e | xs, c''⟩
        · simp
        · exact iff_of_true ⟨xs, c'', rfl⟩ ⟨_, c'', rfl⟩

/-- **Reads that each take something take at least as many bytes as they are many.** -/
theorem Progresses.le_of_replicate {g : Get α} (hg : g.Progresses m) {n : Nat}
    {c c' : Cursor} {xs : { xs : List α // xs.length = n }}
    (h : replicate g n m c = (.ok xs, c')) : n + c'.size ≤ c.size := by
  induction n generalizing c c' with
  | zero =>
    obtain ⟨-, rfl⟩ := Prod.mk.inj h
    exact Nat.le_of_eq (Nat.zero_add _)
  | succ n ih =>
    obtain ⟨x, d, hx, h⟩ := bind_eq_ok_iff.1 h
    obtain ⟨ys, d', hys, h⟩ := bind_eq_ok_iff.1 h
    obtain ⟨-, rfl⟩ := Prod.mk.inj h
    have hfirst := hg c x d hx
    have hrest := ih hys
    omega

/-- A count takes four bytes. -/
theorem size_of_length {n : Nat} {c c' : Cursor} (h : length m c = (.ok n, c')) :
    c'.size + 4 = c.size := by
  obtain ⟨p, b⟩ := c
  obtain ⟨e, rest, ⟨-, he⟩, rfl, rfl⟩ := (accepts_length p b n c').1 h
  obtain ⟨-, rfl⟩ := Put.length_eq_raw_iff.1 he
  simp [Cursor.size, Nat.add_comm]

end Get

namespace Schema

variable {o : Ownership} {α : Type}

/-! ### Room and bytes -/

/-- What takes no room is laid out as nothing. -/
theorem layout_eq_nil {s : Schema o α} (h : s.zeroSized = true) (x : α) : s.layout x = [] := by
  induction s with
  | unit => rfl
  | raw n =>
    obtain rfl : n = 0 := eq_of_beq h
    exact List.eq_nil_of_length_eq_zero x.length_toList
  | array n s ih =>
    rcases Bool.or_eq_true_iff.1 h with h | h
    · obtain rfl : n = 0 := eq_of_beq h
      rw [layout, List.eq_nil_of_length_eq_zero x.length_toList, List.flatMap_nil]
    · exact List.flatMap_eq_nil_iff.2 fun y _ => ih h y
  | pair s t ihs iht =>
    obtain ⟨hs, ht⟩ := Bool.and_eq_true_iff.1 h
    rw [layout, ihs hs, iht ht, List.append_nil]
  | iso f s ih => exact ih h _
  | scalar | bool | float p | text | enumeration e he | option s | seq s | variants | ref =>
    exact absurd h Bool.false_ne_true

/-- **What takes room is laid out as one byte or more.** -/
theorem layout_ne_nil {s : Schema .owned α} (h : s.zeroSized = false) (x : α) :
    s.layout x ≠ [] := by
  have hword : ∀ (w : Width) (i : Int), Bytes.twosComplement w.bytes i ≠ [] := fun w i =>
    List.ne_nil_of_length_pos (by simpa [Bytes.twosComplement] using w.bytes_pos)
  induction s with
  | unit => exact absurd h Bool.false_ne_true.symm
  | scalar => exact hword _ _
  | bool => exact List.cons_ne_nil _ _
  | float p => exact hword _ _
  | text => exact List.append_ne_nil_of_left_ne_nil (hword .w32 _) _
  | raw n =>
    have hn : n ≠ 0 := ne_of_beq_false h
    exact List.ne_nil_of_length_pos (by simpa [layout] using Nat.pos_of_ne_zero hn)
  | enumeration e he => exact List.cons_ne_nil _ _
  | option s ih => cases x <;> exact List.cons_ne_nil _ _
  | seq s ih => exact List.append_ne_nil_of_left_ne_nil (hword .w32 _) _
  | array n s ih =>
    obtain ⟨hn, hs⟩ := Bool.or_eq_false_iff.1 h
    have hn : 0 < n := Nat.pos_of_ne_zero (ne_of_beq_false hn)
    have hfirst : x[0] ∈ x.toList := Vector.mem_toList_iff.2 (Vector.getElem_mem hn)
    exact fun hnil => ih hs x[0] (List.flatMap_eq_nil_iff.1 hnil _ hfirst)
  | pair s t ihs iht =>
    rcases Bool.and_eq_false_iff.1 h with h | h
    · exact List.append_ne_nil_of_left_ne_nil (ihs h x.1) _
    · exact List.append_ne_nil_of_right_ne_nil _ (iht h x.2)
  | variants name pos le payload ih => exact List.cons_ne_nil _ _
  | iso f s ih => exact ih h _
  | ref hb s ih => exact absurd hb Ownership.noConfusion

/-- Every schema has a value that can be written. -/
theorem exists_toBytes (s : Schema .owned α) : ∃ x e, s.toBytes x = .ok e := by
  suffices h : ∃ x, ∀ i ∈ s.items x, i.fault? = none by
    obtain ⟨x, hx⟩ := h
    exact ⟨x, _, toBytes_eq_ok_iff.2 ⟨hx, rfl⟩⟩
  induction s with
  | unit => exact ⟨(), List.forall_mem_nil _⟩
  | scalar => exact ⟨Scalar.ofWord 0, List.forall_mem_singleton.2 rfl⟩
  | bool => exact ⟨false, List.forall_mem_singleton.2 rfl⟩
  | float p => exact ⟨⟨0⟩, List.forall_mem_singleton.2 (by cases p <;> rfl)⟩
  | text => exact ⟨"", List.forall_mem_singleton.2 rfl⟩
  | raw n => exact ⟨Vector.replicate n 0, List.forall_mem_singleton.2 rfl⟩
  | enumeration e he => exact ⟨e.variants.get ⟨0, he.count_pos⟩, List.forall_mem_singleton.2 rfl⟩
  | option s ih => exact ⟨none, List.forall_mem_singleton.2 rfl⟩
  | seq s ih => exact ⟨[], List.forall_mem_singleton.2 (by simp [Item.fault?])⟩
  | array n s ih =>
    obtain ⟨x, hx⟩ := ih
    refine ⟨Vector.replicate n x, fun i hi => ?_⟩
    obtain ⟨y, hy, hi⟩ := List.mem_flatMap.1 hi
    rw [Vector.toList_replicate] at hy
    exact hx i (List.eq_of_mem_replicate hy ▸ hi)
  | pair s t ihs iht =>
    obtain ⟨x, hx⟩ := ihs
    obtain ⟨y, hy⟩ := iht
    exact ⟨(x, y), List.forall_mem_append.2 ⟨hx, hy⟩⟩
  | variants name pos le payload ih =>
    obtain ⟨x, hx⟩ := ih ⟨0, pos⟩
    exact ⟨⟨⟨0, pos⟩, x⟩, List.forall_mem_cons.2 ⟨rfl, hx⟩⟩
  | iso f s ih =>
    obtain ⟨y, hy⟩ := ih
    refine ⟨f.back y, ?_⟩
    rwa [items, f.forth_back]
  | ref hb s ih => exact absurd hb Ownership.noConfusion

/-- **A schema takes no room exactly when nothing is written of its values.** -/
theorem zeroSized_iff {s : Schema .owned α} :
    s.zeroSized = true ↔ ∀ x e, s.toBytes x = .ok e → e = [] := by
  constructor
  · intro h x e he
    rw [eq_layout_of_toBytes he, layout_eq_nil h]
  · intro h
    obtain ⟨x, e, he⟩ := s.exists_toBytes
    refine Bool.of_not_eq_false fun hroom => layout_ne_nil hroom x ?_
    rw [← eq_layout_of_toBytes he, h x e he]

/-- Three units take no room, and neither do no lists at all; an option of a unit
does. -/
example : (pair (array 3 unit) (array 0 (seq bool)) : Schema .owned _).zeroSized = true ∧
    (option unit : Schema .owned _).zeroSized = false := ⟨rfl, rfl⟩

/-- **A type with a writer and a reader of its own takes no memory exactly when
nothing is written of its values.** -/
theorem memoryless_iff [Wire α] : (Wire.schema : Schema .owned α).memoryless = true ↔
    ∀ (x : α) e, Wire.toBytes x = .ok e → e = [] := by
  rw [Wire.memoryless_eq, zeroSized_iff]
  simp only [Wire.toBytes_eq]

/-- A sole variant without other content would be held in no memory, but its ordinal
is written: the two differ there, so it is the schema of no type. -/
example : (variants "Sole" Nat.one_pos (by decide) fun _ => unit :
      Schema .owned ((_ : Fin 1) × Unit)).memoryless = true ∧
    (variants "Sole" Nat.one_pos (by decide) fun _ => unit :
      Schema .owned ((_ : Fin 1) × Unit)).toBytes ⟨0, ()⟩ = .ok [0] := ⟨rfl, rfl⟩

/-! ### Counts and elements -/

/-- At least one byte is written of a value that takes room. -/
theorem length_pos_of_encode {s : Schema .owned α} (h : s.zeroSized = false) {x : α} {e : Bytes}
    (he : s.encode x = .raw e) : 0 < e.length := by
  rw [eq_layout_of_toBytes (Put.toExcept_eq_ok_iff.2 he)]
  exact List.length_pos_of_ne_nil (layout_ne_nil h x)

/-- **A value that takes room uses up some of the input.** -/
theorem progresses_decode {s : Schema .owned α} (h : s.zeroSized = false) (m : Nat) :
    s.decode.Progresses m := by
  rintro ⟨p, b⟩ x c' hread
  obtain ⟨e, rest, ⟨he, -⟩, rfl, rfl⟩ := (s.accepts_decode m p b x c').1 hread
  have hpos := length_pos_of_encode h he
  simp only [Cursor.size, List.length_append]
  omega

/-- A list is written as its count and at least one byte for each element. -/
theorem encode_seq_eq_raw {s : Schema .owned α} {xs : List α} {e : Bytes}
    (h : (seq s).encode xs = .raw e) :
    xs.length ≤ Put.maxLength ∧
      ∃ body, e = Bytes.littleEndian 4 xs.length ++ body ∧ xs.length ≤ body.length := by
  have hmax := le_maxLength_of_encode h _ (List.mem_cons_self ..)
  have he : e = Bytes.littleEndian 4 xs.length ++ xs.flatMap s.layout := by
    rw [eq_layout_of_toBytes (Put.toExcept_eq_ok_iff.2 h), layout,
      Bytes.littleEndian_eq_twosComplement]
  refine ⟨hmax, _, he, ?_⟩
  cases hz : s.zeroSized with
  | true =>
    cases xs with
    | nil => exact Nat.zero_le _
    | cons x xs => exact absurd h (by simp [encode, hz])
  | false =>
    rw [List.length_flatMap, ← List.length_map]
    refine List.length_le_sum_of_one_le _ fun n hn => ?_
    obtain ⟨x, -, rfl⟩ := List.mem_map.1 hn
    exact List.length_pos_of_ne_nil (layout_ne_nil hz x)

/-- How many elements are begun when a list is read: none when the count cannot be
read or is refused. -/
def elementsBegun (s : Schema .owned α) (maxLen : Nat) (c : Cursor) : Nat :=
  match Get.length maxLen c with
  | (.ok n, c') => if s.zeroSized && n != 0 then 0 else s.decode.begun n maxLen c'
  | (.error _, _) => 0

/-- An element is begun when the count is read and not refused, and all elements
before this one are read. -/
theorem lt_elementsBegun_iff {s : Schema .owned α} {m i : Nat} {c : Cursor} :
    i < s.elementsBegun m c ↔ ∃ n c', Get.length m c = (.ok n, c') ∧
      (s.zeroSized && n != 0) = false ∧ i < n ∧
        ∃ xs c'', Get.replicate s.decode i m c' = (.ok xs, c'') := by
  unfold elementsBegun
  rcases Get.length m c with ⟨e | n, c'⟩
  · simp
  · dsimp only
    constructor
    · intro hi
      split at hi
      · exact absurd hi (Nat.not_lt_zero i)
      · rename_i hguard
        obtain ⟨hn, hread⟩ := Get.lt_begun_iff.1 hi
        exact ⟨n, c', rfl, Bool.of_not_eq_true hguard, hn, hread⟩
    · rintro ⟨k, d, hcount, hguard, hk, hread⟩
      obtain ⟨hn, rfl⟩ := Prod.mk.inj hcount
      obtain rfl := Except.ok.inj hn
      rw [hguard, if_neg Bool.false_ne_true]
      exact Get.lt_begun_iff.2 ⟨hk, hread⟩

/-- **The elements begun are at most the bytes after the count and one more.** -/
theorem elementsBegun_le (s : Schema .owned α) (m : Nat) (c : Cursor) :
    s.elementsBegun m c ≤ c.size - 4 + 1 := by
  refine Nat.le_of_not_lt fun hlt => ?_
  -- The element of this number is begun only once all before it were read.
  obtain ⟨n, c', hcount, hguard, hn, xs, c'', hread⟩ := lt_elementsBegun_iff.1 hlt
  have hroom : s.zeroSized = false := (Bool.and_eq_false_iff.1 hguard).resolve_right fun hzero =>
    Nat.ne_zero_of_lt hn (bne_eq_false_iff_eq.1 hzero)
  have htaken := (progresses_decode hroom m).le_of_replicate hread
  have hsize := Get.size_of_length hcount
  omega

variable {s : Schema .owned α} {options : Options} {b : Bytes} {p : Nat}

/-- A value is read up to a place in the input as far on as its bytes are many. -/
theorem exists_le_of_run_decode {x : α} {d : Decoder} {k : Nat} (hk : 0 < k)
    (hbytes : ∀ e, s.encode x = .raw e → k ≤ e.length)
    (h : (⟨options, .seek b p⟩ : Decoder).run s.decode = (.ok x, d)) :
    ∃ q, p + k ≤ q ∧ q ≤ b.length ∧ d = ⟨options, .seek b q⟩ := by
  obtain ⟨q, -, hq, hd, he⟩ := toBytes_of_run_decode h
  have hlen := hbytes _ (Put.toExcept_eq_ok_iff.1 he)
  rw [List.extract_eq_take_drop, List.length_take, List.length_drop] at hlen
  exact ⟨q, by omega, by omega, hd⟩

/-- A count above the bytes that follow it is refused. -/
theorem run_seq_decode_of_lt {count rest : Bytes} (hcount : count.length = 4)
    (hb : b.drop p = count ++ rest) (hlt : rest.length < Bytes.ofLittleEndian count) :
    ∃ e d, (⟨options, .seek b p⟩ : Decoder).run (seq s).decode = (.error e, d) := by
  rcases hrun : (⟨options, .seek b p⟩ : Decoder).run (seq s).decode with ⟨e | xs, d⟩
  · exact ⟨e, d, rfl⟩
  · exfalso
    obtain ⟨e, rest', ⟨he, -⟩, hb', -⟩ := run_decode_eq_ok_iff.1 hrun
    obtain ⟨hmax, body, rfl, hbody⟩ := encode_seq_eq_raw he
    have hsplit : count ++ rest = Bytes.littleEndian 4 xs.length ++ (body ++ rest') := by
      rw [← List.append_assoc, ← hb]
      exact hb'
    obtain ⟨rfl, rfl⟩ := List.append_inj hsplit (by simp [hcount])
    have hfits : xs.length < Bytes.count 4 := Nat.lt_succ_of_le hmax
    rw [Bytes.ofLittleEndian_littleEndian, Nat.mod_eq_of_lt hfits, List.length_append] at hlt
    omega

/-- **No count makes a reader go on beyond its input.**  A schema takes no room
exactly when nothing is written of any value; if it takes room, every value that
is read, from any place and under any options, uses up at least one byte.  So a
list that is read has at most as many elements as bytes were taken after its
count, a count above the bytes that follow it is refused, and however large it is,
the elements begun are at most these bytes and one more.  An element is begun when
the count is read and not refused, it is among as many as the count says, and all
elements before it are read.  What takes no room takes no memory either, in every
type of the library. -/
theorem progress_bounds_elements (s : Schema .owned α) :
    (s.zeroSized = true ↔ ∀ x e, s.toBytes x = .ok e → e = []) ∧
    (s.zeroSized = false → ∀ options b p x d,
      (⟨options, .seek b p⟩ : Decoder).run s.decode = (.ok x, d) →
        ∃ q, p + 1 ≤ q ∧ q ≤ b.length ∧ d = ⟨options, .seek b q⟩) ∧
    (∀ options b p xs d, (⟨options, .seek b p⟩ : Decoder).run (seq s).decode = (.ok xs, d) →
      ∃ q, p + (4 + xs.length) ≤ q ∧ q ≤ b.length ∧ d = ⟨options, .seek b q⟩) ∧
    (∀ options b p count rest, count.length = 4 → b.drop p = count ++ rest →
      rest.length < Bytes.ofLittleEndian count →
        ∃ e d, (⟨options, .seek b p⟩ : Decoder).run (seq s).decode = (.error e, d)) ∧
    (∀ (options : Options) b p,
      s.elementsBegun options.maxLen (.seek b p) ≤ b.length - (p + 4) + 1) ∧
    (∀ (options : Options) b p i,
      i < s.elementsBegun options.maxLen (.seek b p) ↔
        ∃ n c, Get.length options.maxLen (.seek b p) = (.ok n, c) ∧
          (s.zeroSized && n != 0) = false ∧ i < n ∧
            ∃ xs c', Get.replicate s.decode i options.maxLen c = (.ok xs, c')) ∧
    (∀ {β : Type} [Wire β], (Wire.schema : Schema .owned β).memoryless = true ↔
      ∀ (y : β) e, Wire.toBytes y = .ok e → e = []) := by
  refine ⟨zeroSized_iff, fun hroom options b p x d h => ?_, fun options b p xs d h => ?_,
    fun options b p count rest => run_seq_decode_of_lt, fun options b p => ?_,
    fun options b p i => lt_elementsBegun_iff, memoryless_iff⟩
  · exact exists_le_of_run_decode Nat.one_pos (fun e he => length_pos_of_encode hroom he) h
  · refine exists_le_of_run_decode (Nat.add_pos_left (by decide) _) (fun e he => ?_) h
    obtain ⟨-, body, rfl, hbody⟩ := encode_seq_eq_raw he
    rw [List.length_append, Bytes.length_littleEndian]
    exact Nat.add_le_add_left hbody 4
  · have hle := s.elementsBegun_le options.maxLen (.seek b p)
    rwa [Cursor.size, Cursor.seek, List.length_drop, Nat.sub_sub] at hle

/-- The hypotheses are satisfiable: options of units take room.  One is read after
a byte, a list of two after another, and the largest count is refused before two
bytes, of which it begins three options at most. -/
theorem progress_bounds_options :
    (option unit : Schema .owned _).zeroSized = false ∧
    (∃ q, 2 ≤ q ∧ q ≤ 2 ∧ (⟨{}, .seek [7, 1] 2⟩ : Decoder) = ⟨{}, .seek [7, 1] q⟩) ∧
    (∃ q, 7 ≤ q ∧ q ≤ 7 ∧ (⟨{}, .seek [7, 2, 0, 0, 0, 0, 1] 7⟩ : Decoder) =
      ⟨{}, .seek [7, 2, 0, 0, 0, 0, 1] q⟩) ∧
    (∃ e d, (⟨{}, .seek [7, 255, 255, 255, 255, 0, 1] 1⟩ : Decoder).run
      (seq (option unit)).decode = (.error e, d)) ∧
    elementsBegun (option unit) Put.maxLength (.seek [7, 255, 255, 255, 255, 0, 1] 1) ≤ 3 := by
  obtain ⟨-, hone, hlist, hcount, hbegun, -⟩ := progress_bounds_elements (option unit)
  exact ⟨rfl, hone rfl {} [7, 1] 1 (some ()) _ rfl,
    hlist {} [7, 2, 0, 0, 0, 0, 1] 1 [none, some ()] _ rfl,
    hcount {} _ 1 [255, 255, 255, 255] [0, 1] rfl rfl (by decide),
    hbegun {} [7, 255, 255, 255, 255, 0, 1] 1⟩

end Schema
end LightWire
