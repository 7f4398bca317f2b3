/-
# Places of a Merkle path

A path is a count of four bytes and items of 33 bytes each, a hash and then a
side.  So item `i` has its place at `4 + 33 * i`, its hash there and its side 32
bytes further on, and what is read of an input can be told without reading it in
order.  With `n` the count that the first four bytes denote, the first row that
applies decides:

| input | outcome |
| --- | --- |
| fewer than four bytes | `unexpectedEnd` |
| `n` above the limit | `lengthLimit n` |
| of the items before `n` that are cut off or have no side, the first is cut off | `unexpectedEnd` |
| the first has a byte `x` above `1` for its side | `invalidVariant "Direction" x 2` |
| bytes after item `n - 1` | `trailingBytes (4 + 33 * n)` |
| any other | the `n` items |

An item is cut off exactly when there is no byte at the place of its side, so the
items need no look at their hashes.  The places come from reads of one width in a
row (`Get.replicate_of_readsAt`, `Get.replicate_of_error_at`).
-/

import LightWire.Merkle
import LightWire.Proofs.Bytewise

namespace LightWire

namespace Get

variable {α : Type} {g : Get α} {m w n p : Nat} {b : Bytes}

/-- At place `p` of an input a read gives `x` and takes the next `w` bytes. -/
def ReadsAt (g : Get α) (m : Nat) (b : Bytes) (w p : Nat) (x : α) : Prop :=
  g m (.seek b p) = (.ok x, .seek b (p + w))

/-- The places after the first one are those from its end on. -/
theorem place_succ (p w i : Nat) : p + w * (i + 1) = p + w + w * i := by
  rw [Nat.mul_succ, Nat.add_comm (w * i), Nat.add_assoc]

/-- **Reads of one width in a row** give the values that are read at their places. -/
theorem replicate_of_readsAt (h : ∀ i < n, ∃ x, g.ReadsAt m b w (p + w * i) x) :
    ∃ xs, (replicate g n).ReadsAt m b (w * n) p xs ∧
      ∀ (i : Nat) (hi : i < xs.val.length), g.ReadsAt m b w (p + w * i) xs.val[i] := by
  induction n generalizing p with
  | zero => exact ⟨⟨[], rfl⟩, rfl, fun i hi => absurd hi (Nat.not_lt_zero i)⟩
  | succ n ih =>
    obtain ⟨x, hx⟩ := h 0 (Nat.succ_pos n)
    have hx : g m (.seek b p) = (.ok x, .seek b (p + w)) := hx
    obtain ⟨xs, hxs, hitems⟩ := ih (p := p + w) fun i hi => by
      rw [← place_succ]
      exact h (i + 1) (Nat.succ_lt_succ hi)
    refine ⟨⟨x :: xs.val, congrArg Nat.succ xs.property⟩, ?_, fun i hi => ?_⟩
    · rw [ReadsAt, replicate, bind_apply, hx]
      dsimp only
      rw [bind_apply, hxs, place_succ]
      rfl
    · cases i with
      | zero => exact hx
      | succ i =>
        rw [place_succ]
        exact hitems i (Nat.lt_of_succ_lt_succ hi)

/-- **Reads of one width in a row fail as the first that fails does** at its place. -/
theorem replicate_of_error_at {i : Nat} {e : WireError} (hi : i < n)
    (hbefore : ∀ j < i, ∃ x, g.ReadsAt m b w (p + w * j) x)
    (he : (g m (.seek b (p + w * i))).1 = .error e) :
    (replicate g n m (.seek b p)).1 = .error e := by
  induction n generalizing p i with
  | zero => exact absurd hi (Nat.not_lt_zero i)
  | succ n ih =>
    rw [replicate]
    refine bind_eq_error_iff.2 ?_
    cases i with
    | zero => exact .inl he
    | succ i =>
      obtain ⟨x, hx⟩ := hbefore 0 (Nat.succ_pos i)
      have hrest : (replicate g n m (.seek b (p + w))).1 = .error e := by
        refine ih (Nat.lt_of_succ_lt_succ hi) (fun j hj => ?_) (by rwa [← place_succ])
        rw [← place_succ]
        exact hbefore (j + 1) (Nat.succ_lt_succ hj)
      exact .inr ⟨x, _, hx, bind_eq_error_iff.2 (.inl hrest)⟩

end Get

namespace Merkle

variable {m p : Nat} {b : Bytes}

/-! ### One item -/

/-- Each of two bytes stands for a side. -/
theorem Direction.tagValue_of_le {x : UInt8} (h : x.toNat ≤ 1) :
    x = 0 ∧ enumeration.tagValue x = .ok left ∨ x = 1 ∧ enumeration.tagValue x = .ok right := by
  rcases Nat.le_one_iff_eq_zero_or_eq_one.1 h with h | h
  · obtain rfl : x = 0 := UInt8.toNat_inj.1 h
    exact .inl ⟨rfl, rfl⟩
  · obtain rfl : x = 1 := UInt8.toNat_inj.1 h
    exact .inr ⟨rfl, rfl⟩

theorem Direction.tagValue_of_lt {x : UInt8} (h : 1 < x.toNat) :
    enumeration.tagValue x = .error (.invalidVariant "Direction" x.toNat 2) := by
  have hbeyond : enumeration.count ≤ x.toNat := h
  rw [Enumeration.tagValue, if_pos hbeyond]
  rfl

namespace PathItem

/-- An item is 32 bytes and a side. -/
theorem decode_eq_bind : schema.decode =
    (Get.raw 32 >>= fun v => Direction.enumeration.get >>= fun d => pure ⟨⟨v⟩, d⟩) := by
  have hnested : schema.decode = (((Get.raw 32 >>= fun v => pure (Hash.mk v)) >>= fun hash =>
      Direction.enumeration.get >>= fun d => pure (hash, d)) >>= fun item =>
        pure (iso.back item)) := rfl
  rw [hnested]
  simp only [Get.bind_assoc, Get.pure_bind]
  rfl

/-- **An item without the byte of its side is cut off,** within its hash or after it. -/
theorem decode_of_none (h : b[p + 32]? = none) :
    (schema.decode m (.seek b p)).1 = .error .unexpectedEnd := by
  have hcut : b.length ≤ p + 32 := List.getElem?_eq_none_iff.1 h
  rw [decode_eq_bind]
  refine Get.bind_eq_error_iff.2 ?_
  rcases Nat.lt_or_ge (Cursor.seek b p).size 32 with hlt | hge
  · exact .inl (congrArg Prod.fst (Get.raw_of_lt hlt))
  · obtain ⟨v, -, hread⟩ := Get.raw_of_le (m := m) hge
    have hend : (Cursor.seek b p).advance 32 = ⟨p + 32, []⟩ := by
      rw [Cursor.advance_seek, Cursor.seek, List.drop_eq_nil_of_le hcut]
    rw [hend] at hread
    refine .inr ⟨v, _, hread, Get.bind_eq_error_iff.2 (.inl ?_)⟩
    rw [Enumeration.get_nil (by decide)]

/-- **An item with the byte of its side is its 32 bytes and what this byte stands for.** -/
theorem decode_of_some {x : UInt8} (h : b[p + 32]? = some x) :
    ∃ hash : Hash, hash.toBytes = (b.drop p).take 32 ∧
      schema.decode m (.seek b p) =
        ((Direction.enumeration.tagValue x).map (PathItem.mk hash), .seek b (p + 33)) := by
  obtain ⟨hlt, hx⟩ := List.getElem?_eq_some_iff.1 h
  have hwhole : 32 ≤ (Cursor.seek b p).size := by
    rw [Cursor.size, Cursor.seek, List.length_drop]
    omega
  have hside : (Cursor.seek b p).advance 32 = ⟨p + 32, x :: b.drop (p + 33)⟩ := by
    rw [Cursor.advance_seek, Cursor.seek, List.drop_eq_getElem_cons hlt, hx]
  obtain ⟨v, hv, hread⟩ := Get.raw_of_le (m := m) hwhole
  refine ⟨⟨v⟩, hv, ?_⟩
  rw [decode_eq_bind, Get.bind_apply, hread, hside]
  dsimp only
  rw [Get.bind_apply, Enumeration.get_cons (by decide)]
  cases Direction.enumeration.tagValue x with
  | error e => rfl
  | ok d => rfl

end PathItem

namespace Path

/-- Item `i` is whole and has a side. -/
def SideAt (b : Bytes) (i : Nat) : Prop :=
  b[4 + 33 * i + 32]? = some 0 ∨ b[4 + 33 * i + 32]? = some 1

instance (b : Bytes) (i : Nat) : Decidable (SideAt b i) := inferInstanceAs (Decidable (_ ∨ _))

theorem sideAt_iff {i : Nat} :
    SideAt b i ↔ ∃ x, b[4 + 33 * i + 32]? = some x ∧ x.toNat ≤ 1 := by
  constructor
  · rintro (h | h)
    · exact ⟨0, h, Nat.zero_le 1⟩
    · exact ⟨1, h, Nat.le_refl 1⟩
  · rintro ⟨x, h, hx⟩
    rcases Direction.tagValue_of_le hx with ⟨rfl, -⟩ | ⟨rfl, -⟩
    · exact .inl h
    · exact .inr h

/-- An item is read exactly where it is whole and has a side. -/
theorem sideAt_of_readsAt {i : Nat} {item : PathItem}
    (h : PathItem.schema.decode.ReadsAt m b 33 (4 + 33 * i) item) :
    item.hash.toBytes = (b.drop (4 + 33 * i)).take 32 ∧
    (b[4 + 33 * i + 32]? = some 0 ∧ item.direction = .left ∨
      b[4 + 33 * i + 32]? = some 1 ∧ item.direction = .right) := by
  rcases hbyte : b[4 + 33 * i + 32]? with _ | x
  · have hcut := PathItem.decode_of_none (m := m) hbyte
    rw [h] at hcut
    exact nomatch hcut
  · obtain ⟨hash, hhash, hread⟩ := PathItem.decode_of_some (m := m) hbyte
    rw [h] at hread
    have hvalue := congrArg Prod.fst hread
    rcases Nat.lt_or_ge 1 x.toNat with hlt | hle
    · rw [Direction.tagValue_of_lt hlt] at hvalue
      exact nomatch hvalue
    · rcases Direction.tagValue_of_le hle with ⟨rfl, hside⟩ | ⟨rfl, hside⟩
      · rw [hside] at hvalue
        obtain rfl : item = ⟨hash, .left⟩ := Except.ok.inj hvalue
        exact ⟨hhash, .inl ⟨rfl, rfl⟩⟩
      · rw [hside] at hvalue
        obtain rfl : item = ⟨hash, .right⟩ := Except.ok.inj hvalue
        exact ⟨hhash, .inr ⟨rfl, rfl⟩⟩

theorem exists_readsAt {i : Nat} (h : SideAt b i) :
    ∃ item, PathItem.schema.decode.ReadsAt m b 33 (4 + 33 * i) item := by
  obtain ⟨x, hx, hle⟩ := sideAt_iff.1 h
  obtain ⟨hash, -, hread⟩ := PathItem.decode_of_some (m := m) hx
  rcases Direction.tagValue_of_le hle with ⟨-, hside⟩ | ⟨-, hside⟩
  · rw [hside] at hread
    exact ⟨⟨hash, .left⟩, hread⟩
  · rw [hside] at hread
    exact ⟨⟨hash, .right⟩, hread⟩

/-! ### The items in a row -/

/-- Once its count is read, a path is its items one after another. -/
theorem decode_of_le (hcount : 4 ≤ b.length) (hlimit : b.leadingCount ≤ m) :
    schema.decode m (.ofBytes b) =
      (Get.replicate PathItem.schema.decode b.leadingCount >>= fun items => pure items.val) m
        (.seek b 4) := by
  have hlength : Get.length m (.ofBytes b) = (.ok b.leadingCount, .seek b 4) := by
    have hsize : 4 ≤ (Cursor.ofBytes b).size := hcount
    rw [Get.length_of_le hsize]
    exact congrArg (·, _) (if_neg (Nat.not_lt.2 hlimit))
  have hseq : schema.decode = (Get.length >>= fun n =>
      Get.replicate PathItem.schema.decode n >>= fun items => pure items.val) := rfl
  rw [hseq, Get.bind_apply, hlength]

/-- **Items that all have a side are all read.** -/
theorem decode_of_sideAt (hcount : 4 ≤ b.length) (hlimit : b.leadingCount ≤ m)
    (h : ∀ i < b.leadingCount, SideAt b i) :
    ∃ path : Path, schema.decode m (.ofBytes b) = (.ok path, .seek b (4 + 33 * b.leadingCount)) ∧
      path.length = b.leadingCount ∧ ∀ (i : Nat) (hi : i < path.length),
        PathItem.schema.decode.ReadsAt m b 33 (4 + 33 * i) path[i] := by
  obtain ⟨items, hread, hitems⟩ := Get.replicate_of_readsAt fun i hi => exists_readsAt (h i hi)
  refine ⟨items.val, ?_, items.property, hitems⟩
  rw [decode_of_le hcount hlimit, Get.bind_apply, hread]
  rfl

theorem ofBytes_of_decode_error {e : WireError} (h : (schema.decode m (.ofBytes b)).1 = .error e) :
    schema.ofBytes ⟨m, false⟩ b = .error e :=
  Get.whole_of_error (Prod.ext h rfl)

/-- **The first item without a side decides what is refused.** -/
theorem ofBytes_of_error_at {i : Nat} {e : WireError} (hcount : 4 ≤ b.length)
    (hlimit : b.leadingCount ≤ m) (hi : i < b.leadingCount) (hbefore : ∀ j < i, SideAt b j)
    (he : (PathItem.schema.decode m (.seek b (4 + 33 * i))).1 = .error e) :
    schema.ofBytes ⟨m, false⟩ b = .error e := by
  have hitems := Get.replicate_of_error_at hi (fun j hj => exists_readsAt (hbefore j hj)) he
  refine ofBytes_of_decode_error ?_
  rw [decode_of_le hcount hlimit]
  exact Get.bind_eq_error_iff.2 (.inl hitems)

theorem ofBytes_of_cut_off {i : Nat} (hcount : 4 ≤ b.length) (hlimit : b.leadingCount ≤ m)
    (hi : i < b.leadingCount) (hbefore : ∀ j < i, SideAt b j)
    (h : b[4 + 33 * i + 32]? = none) : schema.ofBytes ⟨m, false⟩ b = .error .unexpectedEnd :=
  ofBytes_of_error_at hcount hlimit hi hbefore (PathItem.decode_of_none h)

theorem ofBytes_of_no_side {i : Nat} {x : UInt8} (hcount : 4 ≤ b.length)
    (hlimit : b.leadingCount ≤ m) (hi : i < b.leadingCount) (hbefore : ∀ j < i, SideAt b j)
    (h : b[4 + 33 * i + 32]? = some x) (hx : 1 < x.toNat) :
    schema.ofBytes ⟨m, false⟩ b = .error (.invalidVariant "Direction" x.toNat 2) := by
  obtain ⟨hash, -, hread⟩ := PathItem.decode_of_some (m := m) h
  rw [Direction.tagValue_of_lt hx] at hread
  exact ofBytes_of_error_at hcount hlimit hi hbefore (congrArg Prod.fst hread)

/-- **An input whose items all have a side is these items,** unless bytes follow the
last one. -/
theorem ofBytes_of_sideAt (hcount : 4 ≤ b.length) (hlimit : b.leadingCount ≤ m)
    (h : ∀ i < b.leadingCount, SideAt b i) :
    ∃ path : Path, path.length = b.leadingCount ∧
      (∀ (i : Nat) (hi : i < path.length),
        PathItem.schema.decode.ReadsAt m b 33 (4 + 33 * i) path[i]) ∧
      schema.ofBytes ⟨m, false⟩ b =
        if b.length ≤ 4 + 33 * b.leadingCount then .ok path
        else .error (.trailingBytes (4 + 33 * b.leadingCount)
          (b.length - 4 - 33 * b.leadingCount)) := by
  obtain ⟨path, hread, hlen, hitems⟩ := decode_of_sideAt hcount hlimit h
  refine ⟨path, hlen, hitems, ?_⟩
  have hwhole : schema.ofBytes ⟨m, false⟩ b =
      (⟨⟨m, false⟩, .seek b (4 + 33 * b.leadingCount)⟩ : Decoder).finish.map fun _ => path :=
    Get.whole_of_ok hread
  have hleft : (Cursor.seek b (4 + 33 * b.leadingCount)).size =
      b.length - 4 - 33 * b.leadingCount := by
    rw [Cursor.size, Cursor.seek, List.length_drop, Nat.sub_add_eq]
  split
  · have hdone : (Cursor.seek b (4 + 33 * b.leadingCount)).rest = [] :=
      List.drop_eq_nil_of_le ‹_›
    rw [hwhole, Decoder.finish_eq_ok_iff.2 (.inl hdone)]
    rfl
  · have hmore : 0 < (Cursor.seek b (4 + 33 * b.leadingCount)).size := by omega
    rw [hwhole, Decoder.finish_of_pos rfl hmore, hleft]
    rfl

theorem ofBytes_of_lt (h : b.length < 4) :
    schema.ofBytes ⟨m, false⟩ b = .error .unexpectedEnd := by
  have hsize : (Cursor.ofBytes b).size < 4 := h
  have hlength := congrArg Prod.fst (Get.length_of_lt (m := m) hsize)
  exact ofBytes_of_decode_error (Get.bind_eq_error_iff.2 (.inl hlength))

theorem ofBytes_of_limit (hcount : 4 ≤ b.length) (hlimit : m < b.leadingCount) :
    schema.ofBytes ⟨m, false⟩ b = .error (.lengthLimit b.leadingCount m) := by
  have hsize : 4 ≤ (Cursor.ofBytes b).size := hcount
  have hlength : (Get.length m (.ofBytes b)).1 = .error (.lengthLimit b.leadingCount m) := by
    rw [Get.length_of_le hsize]
    exact if_pos hlimit
  exact ofBytes_of_decode_error (Get.bind_eq_error_iff.2 (.inl hlength))

/-- An input that is accepted has a count within the limit and a side for each item. -/
theorem sideAt_of_ofBytes {path : Path} (h : schema.ofBytes ⟨m, false⟩ b = .ok path) :
    4 ≤ b.length ∧ b.leadingCount ≤ m ∧ ∀ i < b.leadingCount, SideAt b i := by
  have hcount : 4 ≤ b.length := Nat.le_of_not_lt fun hlt =>
    nomatch (ofBytes_of_lt hlt).symm.trans h
  have hlimit : b.leadingCount ≤ m := Nat.le_of_not_lt fun hlt =>
    nomatch (ofBytes_of_limit hcount hlt).symm.trans h
  refine ⟨hcount, hlimit, fun i => ?_⟩
  -- An item without a side that no other comes before would be refused.
  induction i using Nat.strong_induction_on with
  | _ i ih =>
    intro hi
    have hbefore : ∀ j < i, SideAt b j := fun j hj => ih j hj (Nat.lt_trans hj hi)
    rcases hbyte : b[4 + 33 * i + 32]? with _ | x
    · rw [ofBytes_of_cut_off hcount hlimit hi hbefore hbyte] at h
      exact nomatch h
    · rcases Nat.lt_or_ge 1 x.toNat with hlt | hle
      · rw [ofBytes_of_no_side hcount hlimit hi hbefore hbyte hlt] at h
        exact nomatch h
      · exact sideAt_iff.2 ⟨x, hbyte, hle⟩

/-- An input whose items all have a side reaches to the end of the last one. -/
theorem le_length_of_sideAt (hcount : 4 ≤ b.length) (h : ∀ i < b.leadingCount, SideAt b i) :
    4 + 33 * b.leadingCount ≤ b.length := by
  rcases Nat.eq_zero_or_pos b.leadingCount with hzero | hpos
  · omega
  · obtain ⟨x, hx, -⟩ := sideAt_iff.1 (h (b.leadingCount - 1) (Nat.sub_one_lt_of_lt hpos))
    obtain ⟨hlast, -⟩ := List.getElem?_eq_some_iff.1 hx
    omega

/-- **A path is read by its places.**  With `n` the count in the first four bytes, an
input is a path exactly if it has these bytes, `n` is within the limit, the input
ends after `n` items and each of them has a side, `0` or `1`, in its last byte; then
the path has `n` items, and item `i` is the hash at `4 + 33 * i` and the side after
it, left for `0` and right for `1`.  Any other input is refused: without a count for
its end; else for a count above the limit; else for the first item without a side,
which is cut off or has a byte above `1`; else for the bytes after the last item. -/
theorem path_is_read_by_places (m : Nat) (b : Bytes) :
    ((∃ path, schema.ofBytes ⟨m, false⟩ b = .ok path) ↔
      4 ≤ b.length ∧ b.leadingCount ≤ m ∧ b.length = 4 + 33 * b.leadingCount ∧
        ∀ i < b.leadingCount, SideAt b i) ∧
    (∀ path, schema.ofBytes ⟨m, false⟩ b = .ok path →
      path.length = b.leadingCount ∧ ∀ (i : Nat) (hi : i < path.length),
        path[i].hash.toBytes = (b.drop (4 + 33 * i)).take 32 ∧
        (b[4 + 33 * i + 32]? = some 0 ∧ path[i].direction = .left ∨
          b[4 + 33 * i + 32]? = some 1 ∧ path[i].direction = .right)) ∧
    (b.length < 4 → schema.ofBytes ⟨m, false⟩ b = .error .unexpectedEnd) ∧
    (4 ≤ b.length → m < b.leadingCount →
      schema.ofBytes ⟨m, false⟩ b = .error (.lengthLimit b.leadingCount m)) ∧
    (4 ≤ b.length → b.leadingCount ≤ m → ∀ i < b.leadingCount, (∀ j < i, SideAt b j) →
      (b.length < 4 + 33 * (i + 1) → schema.ofBytes ⟨m, false⟩ b = .error .unexpectedEnd) ∧
      ∀ x, b[4 + 33 * i + 32]? = some x → 1 < x.toNat →
        schema.ofBytes ⟨m, false⟩ b = .error (.invalidVariant "Direction" x.toNat 2)) ∧
    (4 ≤ b.length → b.leadingCount ≤ m → (∀ i < b.leadingCount, SideAt b i) →
      4 + 33 * b.leadingCount < b.length →
        schema.ofBytes ⟨m, false⟩ b = .error (.trailingBytes (4 + 33 * b.leadingCount)
          (b.length - 4 - 33 * b.leadingCount))) := by
  refine ⟨⟨?_, ?_⟩, fun path h => ?_, ofBytes_of_lt, ofBytes_of_limit, ?_, ?_⟩
  · rintro ⟨path, h⟩
    obtain ⟨hcount, hlimit, hsides⟩ := sideAt_of_ofBytes h
    obtain ⟨_, -, -, hread⟩ := ofBytes_of_sideAt hcount hlimit hsides
    refine ⟨hcount, hlimit, Nat.le_antisymm ?_ (le_length_of_sideAt hcount hsides), hsides⟩
    refine Nat.le_of_not_lt fun hlt => ?_
    rw [if_neg (Nat.not_le.2 hlt), h] at hread
    exact nomatch hread
  · rintro ⟨hcount, hlimit, hlen, hsides⟩
    obtain ⟨path, -, -, hread⟩ := ofBytes_of_sideAt hcount hlimit hsides
    rw [if_pos (Nat.le_of_eq hlen)] at hread
    exact ⟨path, hread⟩
  · obtain ⟨hcount, hlimit, hsides⟩ := sideAt_of_ofBytes h
    obtain ⟨path', hlen, hitems, hread⟩ := ofBytes_of_sideAt hcount hlimit hsides
    rw [h] at hread
    split at hread
    · obtain rfl := Except.ok.inj hread
      exact ⟨hlen, fun i hi => sideAt_of_readsAt (hitems i hi)⟩
    · exact nomatch hread
  · intro hcount hlimit i hi hbefore
    refine ⟨fun hcut => ?_, fun x => ofBytes_of_no_side hcount hlimit hi hbefore⟩
    exact ofBytes_of_cut_off hcount hlimit hi hbefore (List.getElem?_eq_none (by omega))
  · intro hcount hlimit hsides hlong
    obtain ⟨_, -, -, hread⟩ := ofBytes_of_sideAt hcount hlimit hsides
    rwa [if_neg (Nat.not_le.2 hlong)] at hread

/-- The hypotheses are satisfiable: a path of two items; the first one with a byte `2`
for its side and the second cut off, where the byte comes first; and an empty path
with a byte after it. -/
theorem path_is_read_by_places_of_short_inputs :
    (∃ path, schema.ofBytes ⟨2, false⟩
      ([2, 0, 0, 0] ++ List.replicate 32 9 ++ [1] ++ List.replicate 32 8 ++ [0]) = .ok path) ∧
    schema.ofBytes ⟨2, false⟩ ([2, 0, 0, 0] ++ List.replicate 32 9 ++ [2, 8]) =
      .error (.invalidVariant "Direction" 2 2) ∧
    schema.ofBytes ⟨2, false⟩ ([2, 0, 0, 0] ++ List.replicate 32 9 ++ [1, 8]) =
      .error .unexpectedEnd ∧
    schema.ofBytes ⟨2, false⟩ [3, 0, 0, 0] = .error (.lengthLimit 3 2) ∧
    schema.ofBytes ⟨2, false⟩ [0, 0, 0, 0, 7] = .error (.trailingBytes 4 1) := by
  obtain ⟨haccepted, -⟩ := path_is_read_by_places 2
    ([2, 0, 0, 0] ++ List.replicate 32 9 ++ [1] ++ List.replicate 32 8 ++ [0])
  obtain ⟨-, -, -, -, hside, -⟩ := path_is_read_by_places 2
    ([2, 0, 0, 0] ++ List.replicate 32 9 ++ [2, 8])
  obtain ⟨-, -, -, -, hcut, -⟩ := path_is_read_by_places 2
    ([2, 0, 0, 0] ++ List.replicate 32 9 ++ [1, 8])
  obtain ⟨-, -, -, hlimit, -⟩ := path_is_read_by_places 2 [3, 0, 0, 0]
  obtain ⟨-, -, -, -, -, hlong⟩ := path_is_read_by_places 2 [0, 0, 0, 0, 7]
  exact ⟨haccepted.2 (by decide),
    (hside (by decide) (by decide) 0 (by decide) (by decide)).2 2 (by decide) (by decide),
    (hcut (by decide) (by decide) 1 (by decide) (by decide)).1 (by decide),
    hlimit (by decide) (by decide), hlong (by decide) (by decide) (by decide) (by decide)⟩

end Path
end Merkle
end LightWire
