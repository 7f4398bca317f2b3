/-
# The limit on counts

A reader is given a limit, and a count above it is refused where it is read.
Two readers with different limits go through an input in step until the lower
limit refuses a count:

| under the largest limit | counts in the value | under the limit `m` |
| --- | --- | --- |
| a value | none is above `m` | the same value |
| a value | `n` is the first above `m` | `lengthLimit n m` |
| a failure | | the same, or `lengthLimit n m` with `m < n` |

The last row is a law of every read that is put together from parts
(`Sequential.eq_or_lengthLimit`).  The first two need to know which counts a
value holds and in which order they are read; `Get.Meets` says that of a read,
and reads in a row meet the counts of one after those of the other
(`Meets.bind`).
-/

import LightWire.Proofs.RoundTrip
import LightWire.Proofs.Sequential

namespace LightWire
namespace Get

variable {α β : Type} {m : Nat}

/-- Reads in a row stop at the first one that fails. -/
theorem bind_error {g : Get α} {c : Cursor} {e : WireError} (h : (g m c).1 = .error e)
    (f : α → Get β) : ((g >>= f) m c).1 = .error e := by
  rw [bind_apply]
  rcases hr : g m c with ⟨e' | x, c'⟩
  · rw [hr] at h
    exact congrArg _ (Except.error.inj h)
  · rw [hr] at h
    exact nomatch h

/-- **A lower limit changes nothing or refuses a count above it.** -/
theorem Sequential.eq_or_lengthLimit {g : Get α} (h : g.Sequential) {m' : Nat} (hm : m ≤ m')
    (c : Cursor) :
    g m c = g m' c ∨ ∃ n, m < n ∧ (g m c).1 = .error (.lengthLimit n m) := by
  induction h generalizing c with
  | pure x => exact .inl rfl
  | fail e => exact .inl rfl
  | raw n => exact .inl rfl
  | within n =>
    unfold Get.within
    by_cases hn : m < n
    · refine .inr ⟨n, hn, ?_⟩
      rw [if_pos hn]
      rfl
    · rw [if_neg hn, if_neg fun hn' => hn (Nat.lt_of_le_of_lt hm hn')]
      exact .inl rfl
  | @bind _ _ g f hg hf ihg ihf =>
    rcases ihg c with heq | ⟨n, hn, herr⟩
    · -- The limits agree so far, and the second read starts from one cursor.
      simp only [bind_apply]
      rw [heq]
      rcases g m' c with ⟨e | x, c'⟩
      · exact .inl rfl
      · exact ihf x c'
    · exact .inr ⟨n, hn, bind_error herr f⟩

/-- Where the form `e` of `x` comes next, a read meets the counts `ns`: it gives
`x` if none of them is above the limit, and refuses the first that is. -/
def Meets (g : Get α) (m : Nat) (x : α) (e : Bytes) (ns : List Nat) : Prop :=
  ∀ p rest,
    (ns.find? (m < ·) = none → g m ⟨p, e ++ rest⟩ = (.ok x, ⟨p + e.length, rest⟩)) ∧
    (∀ n, ns.find? (m < ·) = some n → (g m ⟨p, e ++ rest⟩).1 = .error (.lengthLimit n m))

/-- What a read accepts with no count in it. -/
theorem Accepts.meets {g : Get α} {W : α → Bytes → Prop} (hg : g.Accepts m W) {x : α} {e : Bytes}
    (hx : W x e) : g.Meets m x e [] := fun p rest =>
  ⟨fun _ => (hg p (e ++ rest) x _).2 ⟨e, rest, hx, rfl, rfl⟩, nofun⟩

namespace Meets

variable {g : Get α} {x : α} {a : Bytes} {ns : List Nat}

/-- **Reads in a row meet the counts of one after those of the other.** -/
protected theorem bind {f : α → Get β} {y : β} {b : Bytes} {ks : List Nat}
    (hg : g.Meets m x a ns) (hf : (f x).Meets m y b ks) :
    (g >>= f).Meets m y (a ++ b) (ns ++ ks) := by
  intro p rest
  obtain ⟨hread, hrefuse⟩ := hg p (b ++ rest)
  rw [List.append_assoc, List.find?_append]
  cases hns : ns.find? (m < ·) with
  | none =>
    rw [bind_apply, hread hns, List.length_append, ← Nat.add_assoc]
    exact hf (p + a.length) rest
  | some n =>
    refine ⟨nofun, fun k hk => ?_⟩
    obtain rfl : n = k := Option.some.inj hk
    exact bind_error (hrefuse n hns) f

/-- What reads nothing more and refuses nothing meets no more counts. -/
protected theorem guard {f : α → Get β} {y : β} (hg : g.Meets m x a ns) (hf : f x = pure y) :
    (g >>= f).Meets m y a ns := by
  have hpure : (f x).Meets m y [] [] := hf ▸ (Accepts.pure y).meets ⟨rfl, rfl⟩
  have h := hg.bind hpure
  rwa [List.append_nil, List.append_nil] at h

end Meets

/-- A count meets itself. -/
theorem meets_length {n : Nat} {e : Bytes} (h : Put.length n = .raw e) :
    length.Meets m n e [n] := by
  obtain ⟨hmax, rfl⟩ := Put.length_eq_raw_iff.1 h
  have hword : (UInt32.ofNat n).toNat = n := UInt32.toNat_ofNat_of_lt' (Nat.lt_succ_of_le hmax)
  have hbytes : Bytes.littleEndian 4 n = Scalar.toBytes (UInt32.ofNat n) :=
    congrArg (Bytes.littleEndian 4) hword.symm
  have hwithin : (within (UInt32.ofNat n).toNat).Meets m n [] [n] := by
    rw [hword]
    intro p rest
    unfold within
    by_cases hn : m < n
    · simp [hn, fail]
    · simp [hn, Get.pure]
  have h := (accepts_scalar.meets hbytes).bind (f := fun word : UInt32 => within word.toNat) hwithin
  rwa [List.append_nil] at h

/-- A text meets the count of its bytes. -/
theorem meets_text {s : String} {e : Bytes} (h : Put.text s = .raw e) :
    text.Meets m s e [(Put.utf8 s).length] := by
  obtain ⟨hmax, rfl⟩ := Put.sized_eq_raw_iff.1 h
  have hlength : length.Meets m (Put.utf8 s).length _ _ :=
    meets_length (Put.length_eq_raw_iff.2 ⟨hmax, rfl⟩)
  have hfield : (raw (Put.utf8 s).length).Meets m ⟨(Put.utf8 s).toArray, rfl⟩ (Put.utf8 s) [] :=
    (accepts_raw _).meets rfl
  have hsized : sized.Meets m (Put.utf8 s) _ _ := hlength.bind (hfield.guard rfl)
  refine hsized.guard ?_
  rw [ofUtf8?_eq_some_iff.2 rfl]

/-- Values read one by one meet the counts of each in order. -/
theorem meets_replicate {g : Get α} {w : α → Put} {counts : α → List Nat}
    (hg : ∀ x e, w x = .raw e → g.Meets m x e (counts x)) {n : Nat}
    (xs : { xs : List α // xs.length = n }) {e : Bytes} (he : Put.concat (xs.val.map w) = .raw e) :
    (replicate g n).Meets m xs e (xs.val.flatMap counts) := by
  induction n generalizing e with
  | zero =>
    obtain ⟨xs, hlen⟩ := xs
    obtain rfl := List.eq_nil_of_length_eq_zero hlen
    obtain rfl := Put.empty_eq_raw_iff.1 he
    exact (Accepts.pure _).meets ⟨rfl, rfl⟩
  | succ n ih =>
    obtain ⟨_ | ⟨x, xs⟩, hlen⟩ := xs
    · exact absurd hlen (Nat.succ_ne_zero n).symm
    · obtain ⟨a, b, ha, hb, rfl⟩ := Put.append_eq_raw_iff.1 he
      have hxs : (replicate g n).Meets m ⟨xs, Nat.succ.inj hlen⟩ b (xs.flatMap counts) := ih _ hb
      rw [replicate, List.flatMap_cons]
      exact (hg x a ha).bind (hxs.guard rfl)

end Get

namespace Schema

variable {α : Type} {m : Nat}

/-- A sequence meets its own count before those in its elements. -/
theorem meets_seq {s : Schema .owned α}
    (hs : ∀ x e, s.encode x = .raw e → s.decode.Meets m x e (s.lengths x)) {xs : List α}
    {e : Bytes} (h : (seq s).encode xs = .raw e) :
    (seq s).decode.Meets m xs e ((seq s).lengths xs) := by
  rw [encode] at h
  split at h
  · exact absurd h (Put.fail_ne_raw _ _)
  · rename_i hz
    obtain ⟨a, b, ha, hb, rfl⟩ := Put.append_eq_raw_iff.1 h
    have hguard : (s.zeroSized && xs.length != 0) = false := by
      cases xs with
      | nil => simp
      | cons x xs => simpa using hz
    refine (Get.meets_length ha).bind ?_
    rw [hguard, if_neg Bool.false_ne_true]
    exact (Get.meets_replicate hs ⟨xs, rfl⟩ hb).guard rfl

/-- A value with no count in it meets none. -/
theorem meets_of_lengths_eq_nil {s : Schema .owned α} {x : α} {e : Bytes}
    (h : s.encode x = .raw e) (hnone : s.lengths x = []) :
    s.decode.Meets m x e (s.lengths x) := by
  rw [hnone]
  exact (s.accepts_decode m).meets ⟨h, hnone ▸ List.forall_mem_nil _⟩

/-- **A value of any schema meets the counts in it** in their order. -/
theorem meets_decode (s : Schema .owned α) {x : α} {e : Bytes} (h : s.encode x = .raw e) :
    s.decode.Meets m x e (s.lengths x) := by
  induction s generalizing e with
  | unit => exact meets_of_lengths_eq_nil h rfl
  | scalar => exact meets_of_lengths_eq_nil h rfl
  | bool => exact meets_of_lengths_eq_nil h rfl
  | float p => exact meets_of_lengths_eq_nil h rfl
  | text => exact Get.meets_text h
  | raw n => exact meets_of_lengths_eq_nil h rfl
  | enumeration t ht => exact meets_of_lengths_eq_nil h rfl
  | option s ih =>
    cases x with
    | none => exact meets_of_lengths_eq_nil h rfl
    | some x =>
      obtain ⟨a, b, ha, hb, rfl⟩ := Put.append_eq_raw_iff.1 h
      exact ((Get.accepts_flag .invalidOption).meets ha).bind ((ih hb).guard rfl)
  | seq s ih => exact meets_seq (fun x e he => ih he) h
  | array n s ih =>
    exact (Get.meets_replicate (fun x e he => ih he) ⟨x.toList, x.length_toList⟩ h).guard rfl
  | pair s t ihs iht =>
    obtain ⟨a, b, ha, hb, rfl⟩ := Put.append_eq_raw_iff.1 h
    exact (ihs ha).bind ((iht hb).guard rfl)
  | variants name pos le payload ih =>
    obtain ⟨a, b, ha, hb, rfl⟩ := Put.append_eq_raw_iff.1 h
    exact ((Get.accepts_tag name le).meets ha).bind ((ih _ hb).guard rfl)
  | iso f s ih =>
    refine (ih h).guard ?_
    rw [f.back_forth]
  | ref hr s ih => exact absurd hr Ownership.noConfusion

/-- A value is read under a limit when it is read under the largest one and no
count in it is above the limit. -/
theorem decode_eq_ok_iff {s : Schema .owned α} {c c' : Cursor} {x : α} :
    s.decode m c = (.ok x, c') ↔
      s.decode Put.maxLength c = (.ok x, c') ∧ ∀ n ∈ s.lengths x, n ≤ m := by
  obtain ⟨p, b⟩ := c
  rw [accepts_decode, accepts_decode]
  constructor
  · rintro ⟨e, rest, ⟨he, hn⟩, hb, hc⟩
    exact ⟨⟨e, rest, ⟨he, le_maxLength_of_encode he⟩, hb, hc⟩, hn⟩
  · rintro ⟨⟨e, rest, ⟨he, -⟩, hb, hc⟩, hn⟩
    exact ⟨e, rest, ⟨he, hn⟩, hb, hc⟩

/-- A value that is read under the largest limit is refused under another one at
the first count above it. -/
theorem decode_eq_lengthLimit {s : Schema .owned α} {c c' : Cursor} {x : α}
    (h : s.decode Put.maxLength c = (.ok x, c')) {n : Nat}
    (hn : (s.lengths x).find? (m < ·) = some n) :
    (s.decode m c).1 = .error (.lengthLimit n m) := by
  obtain ⟨p, b⟩ := c
  obtain ⟨e, rest, ⟨he, -⟩, rfl, -⟩ := (accepts_decode _ _ _ _ _ _).1 h
  exact (meets_decode s he p rest).2 n hn

/-- **What a limit does.**  At any place of any input, under a limit `m`: a value
is read exactly if it is read under the largest limit and no count in it is above
`m`; a value that is read under the largest limit but holds a count above `m` is
refused at the first such count; and in any case the outcome is that under any
higher limit, the cursor included, or it is the refusal of a count above `m`. -/
theorem limit_refuses_first_count_above (s : Schema .owned α) (b : Bytes) (p : Nat) {m m' : Nat}
    (hm : m ≤ m') :
    (∀ x c, s.decode m (.seek b p) = (.ok x, c) ↔
      s.decode Put.maxLength (.seek b p) = (.ok x, c) ∧ ∀ n ∈ s.lengths x, n ≤ m) ∧
    (∀ x c, s.decode Put.maxLength (.seek b p) = (.ok x, c) → (∃ n ∈ s.lengths x, m < n) →
      ∃ n, (s.lengths x).find? (m < ·) = some n ∧
        (s.decode m (.seek b p)).1 = .error (.lengthLimit n m)) ∧
    (s.decode m (.seek b p) = s.decode m' (.seek b p) ∨
      ∃ n, m < n ∧ (s.decode m (.seek b p)).1 = .error (.lengthLimit n m)) := by
  refine ⟨fun x c => decode_eq_ok_iff, fun x c h habove => ?_,
    s.sequential_decode.eq_or_lengthLimit hm (.seek b p)⟩
  obtain ⟨n, hn⟩ : ∃ n, (s.lengths x).find? (m < ·) = some n := by
    rw [← Option.isSome_iff_exists, List.find?_isSome]
    simpa using habove
  exact ⟨n, hn, decode_eq_lengthLimit h hn⟩

/-- The hypotheses are satisfiable: under the limit `1` a list of one truth value
is read, and of two lists after it, one of three truth values, the two is refused
and not the three. -/
theorem limit_refuses_two_lists :
    (seq bool).decode 1 (.seek [7, 1, 0, 0, 0, 1, 2, 0, 0, 0, 3, 0, 0, 0, 1, 0, 1, 0, 0, 0, 0] 1) =
      (.ok [true], ⟨6, [2, 0, 0, 0, 3, 0, 0, 0, 1, 0, 1, 0, 0, 0, 0]⟩) ∧
    ((pair (seq bool) (seq (seq bool))).decode 1
        (.seek [7, 1, 0, 0, 0, 1, 2, 0, 0, 0, 3, 0, 0, 0, 1, 0, 1, 0, 0, 0, 0] 1)).1 =
      .error (.lengthLimit 2 1) := by
  obtain ⟨n, hfirst, herror⟩ := (limit_refuses_first_count_above (pair (seq bool) (seq (seq bool)))
    [7, 1, 0, 0, 0, 1, 2, 0, 0, 0, 3, 0, 0, 0, 1, 0, 1, 0, 0, 0, 0] 1 (show 1 ≤ 2 by decide)).2.1
      ([true], [[true, false, true], []]) _ rfl ⟨2, by decide, by decide⟩
  obtain rfl : 2 = n := Option.some.inj hfirst
  exact ⟨((limit_refuses_first_count_above (seq bool) _ 1 (show 1 ≤ 2 by decide)).1 _ _).2
    ⟨rfl, by decide⟩, herror⟩

end Schema
end LightWire
