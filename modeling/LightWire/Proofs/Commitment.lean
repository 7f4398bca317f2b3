/-
# What a header commits to

A view may announce the producers of a later epoch, and its header holds the
digest of the list of them as it is written.  Comparing the two ends in one of
three ways:

| producers announced | written | comparison |
| --- | --- | --- |
| none | | false |
| a list | as bytes | whether the digest of the bytes is the one in the header |
| a list | refused for a count | refused for that count |

A list of producers is refused for a count alone, that of its entries or that of
the bytes of an account (`toBytes_eq_error_iff_of_countsOnly`), and nothing else
in an entry can be refused.  The digest binds the list because no two lists are
written as the same bytes: accounts may have any length and keys one of two
sizes, but each says so before its bytes.
-/

import LightWire.Proofs.Binding
import LightWire.Proofs.Items

namespace LightWire

namespace Schema

variable {o : Ownership}

/-- The values hold no floating-point number and no sequence of elements that take
no room, so that nothing in them is refused but a count. -/
def CountsOnly : {α : Type} → Schema o α → Prop
  | _, unit => True
  | _, scalar => True
  | _, bool => True
  | _, float _ => False
  | _, text => True
  | _, raw _ => True
  | _, enumeration _ _ => True
  | _, option s => s.CountsOnly
  | _, seq s => s.zeroSized = false ∧ s.CountsOnly
  | _, array _ s => s.CountsOnly
  | _, pair s t => s.CountsOnly ∧ t.CountsOnly
  | _, variants _ _ _ payload => ∀ i, (payload i).CountsOnly
  | _, iso _ s => s.CountsOnly
  | _, ref _ s => s.CountsOnly

/-- Elements are refused in order, each for the first count in it that does not
fit. -/
theorem findSome?_fault?_elements {α : Type} {s : Schema o α}
    (h : ∀ x, (s.items x).findSome? Item.fault? =
      ((s.lengths x).find? (Put.maxLength < ·)).map .lengthOverflow) (xs : List α) :
    (xs.flatMap s.items).findSome? Item.fault? =
      ((xs.flatMap s.lengths).find? (Put.maxLength < ·)).map .lengthOverflow := by
  induction xs with
  | nil => rfl
  | cons x xs ih =>
    rw [List.flatMap_cons, List.flatMap_cons, List.findSome?_append, List.find?_append,
      Option.map_or, h, ih]

/-- **The first fault of a value is the first count in it that does not fit.** -/
theorem findSome?_fault?_items {α : Type} {s : Schema o α} (h : s.CountsOnly) (x : α) :
    (s.items x).findSome? Item.fault? =
      ((s.lengths x).find? (Put.maxLength < ·)).map .lengthOverflow := by
  induction s with
  | unit => rfl
  | scalar => rfl
  | bool => rfl
  | float p => exact absurd h id
  | text =>
    by_cases hmax : Put.maxLength < (Put.utf8 x).length
    · simp [items, lengths, Item.fault?, hmax, Nat.not_le.2 hmax]
    · simp [items, lengths, Item.fault?, hmax, Nat.not_lt.1 hmax]
  | raw n => rfl
  | enumeration e he => rfl
  | option s ih =>
    cases x with
    | none => rfl
    | some x => exact ih h x
  | seq s ih =>
    have hxs := findSome?_fault?_elements (ih h.2) x
    by_cases hmax : Put.maxLength < x.length
    · simp [items, lengths, Item.fault?, h.1, hmax, Nat.not_le.2 hmax]
    · simp [items, lengths, Item.fault?, h.1, hmax, Nat.not_lt.1 hmax, hxs]
  | array n s ih => exact findSome?_fault?_elements (ih h) x.toList
  | pair s t ihs iht =>
    rw [items, lengths, List.findSome?_append, List.find?_append, Option.map_or, ihs h.1, iht h.2]
  | variants name pos le payload ih => exact ih x.1 (h x.1) x.2
  | iso f s ih => exact ih h _
  | ref hb s ih => exact ih h _

/-- **A value is refused for the first count in it that does not fit.** -/
theorem toBytes_eq_error_iff_of_countsOnly {α : Type} {s : Schema o α} (h : s.CountsOnly) {x : α}
    {e : WireError} : s.toBytes x = .error e ↔
      ∃ n, (s.lengths x).find? (Put.maxLength < ·) = some n ∧ e = .lengthOverflow n := by
  rw [toBytes, Put.toExcept_eq_error_iff, encode_eq_concat, Item.concat_put,
    findSome?_fault?_items h, Option.map_eq_some_iff]
  exact exists_congr fun n => and_congr_right fun _ => eq_comm

end Schema

namespace ProducerList

variable {o : Ownership}

/-- The counts in a list of producers: of its entries, and then of the bytes of
each account. -/
def counts (producers : ProducerList) : List Nat :=
  producers.length :: producers.map fun entry => (Put.utf8 entry.producer.account).length

theorem lengths_eq (producers : ProducerList) :
    (schema : Schema o _).lengths producers = producers.counts := by
  have hentry : ∀ entry, (ProducerEntry.schema : Schema o _).lengths entry =
      [(Put.utf8 entry.producer.account).length] := by
    rintro ⟨account, key, stake⟩
    have hkey : (PublicKey.schema : Schema o _).lengths key = [] := by
      cases key with
      | ed25519 bytes => exact List.flatMap_eq_nil_iff.2 fun _ _ => rfl
      | secp256k1 bytes => exact List.flatMap_eq_nil_iff.2 fun _ _ => rfl
    exact congrArg (fun ns => [(Put.utf8 account).length] ++ (ns ++ [])) hkey
  rw [counts, List.map_eq_flatMap, ← funext hentry]
  rfl

/-- Nothing in a list of producers is refused but a count. -/
theorem countsOnly_schema : (schema : Schema o _).CountsOnly :=
  ⟨rfl, fun _ => ⟨trivial, fun | 0 => trivial | 1 => trivial, trivial⟩⟩

/-- **A list of producers is refused for the first count in it that does not fit.** -/
theorem toBytes_eq_error_iff {producers : ProducerList} {e : WireError} :
    (schema : Schema o _).toBytes producers = .error e ↔
      ∃ n, producers.counts.find? (Put.maxLength < ·) = some n ∧ e = .lengthOverflow n := by
  rw [Schema.toBytes_eq_error_iff_of_countsOnly countsOnly_schema, lengths_eq]

/-- A count in a list of producers that does not fit is the count of entries or
that of the bytes of an account. -/
theorem exists_overflow_iff {producers : ProducerList} :
    (∃ n, producers.counts.find? (Put.maxLength < ·) = some n) ↔
      Put.maxLength < producers.length ∨
        ∃ entry ∈ producers, Put.maxLength < (Put.utf8 entry.producer.account).length := by
  rw [← Option.isSome_iff_exists, List.find?_isSome]
  simp [counts]

end ProducerList

namespace BlockView

variable {D : Digest} {v : BlockView}

/-- **How a comparison ends:** with false where no producers are announced, with
that of the digest of what is written of them, or with the cause for which they
are refused. -/
theorem nextProducersMatch_eq_iff {r : Except WireError Bool} :
    v.nextProducersMatch D = r ↔ (v.nextProducers = none ∧ .ok false = r) ∨
      (∃ producers x, v.nextProducers = some producers ∧
        (ProducerList.schema : Schema .owned _).toBytes producers = .ok x ∧
          .ok (D x == v.header.nextProducers) = r) ∨
      (∃ producers e, v.nextProducers = some producers ∧
        (ProducerList.schema : Schema .owned _).toBytes producers = .error e ∧ .error e = r) := by
  unfold nextProducersMatch nextProducersHash ProducerList.hash
  cases v.nextProducers with
  | none => simp [Except.map]
  | some producers =>
    dsimp only
    cases hx : (ProducerList.schema : Schema .owned _).toBytes producers with
    | error e => simp [Except.map, hx]
    | ok x => simp [Except.map, hx]

theorem nextProducersMatch_eq_ok_true_iff : v.nextProducersMatch D = .ok true ↔
    ∃ producers x, v.nextProducers = some producers ∧
      (ProducerList.schema : Schema .owned _).toBytes producers = .ok x ∧
        D x = v.header.nextProducers := by
  simp [nextProducersMatch_eq_iff]

theorem nextProducersMatch_eq_ok_false_iff : v.nextProducersMatch D = .ok false ↔
    v.nextProducers = none ∨ ∃ producers x, v.nextProducers = some producers ∧
      (ProducerList.schema : Schema .owned _).toBytes producers = .ok x ∧
        D x ≠ v.header.nextProducers := by
  simp [nextProducersMatch_eq_iff]

/-- A comparison fails for the first count in the list that does not fit. -/
theorem nextProducersMatch_eq_error_iff {e : WireError} : v.nextProducersMatch D = .error e ↔
    ∃ producers n, v.nextProducers = some producers ∧
      producers.counts.find? (Put.maxLength < ·) = some n ∧ e = .lengthOverflow n := by
  rw [nextProducersMatch_eq_iff]
  constructor
  · rintro (⟨-, h⟩ | ⟨_, _, -, -, h⟩ | ⟨producers, _, hv, he, h⟩)
    · exact nomatch h
    · exact nomatch h
    · obtain rfl := Except.error.inj h
      obtain ⟨n, hn⟩ := ProducerList.toBytes_eq_error_iff.1 he
      exact ⟨producers, n, hv, hn⟩
  · rintro ⟨producers, n, hv, hn⟩
    exact .inr (.inr ⟨producers, e, hv, ProducerList.toBytes_eq_error_iff.2 ⟨n, hn⟩, rfl⟩)

/-- **One digest, one list of producers,** or two byte strings that are a collision. -/
theorem eq_or_collision_of_nextProducersMatch {a b : BlockView}
    (hheader : a.header.nextProducers = b.header.nextProducers)
    (ha : a.nextProducersMatch D = .ok true) (hb : b.nextProducersMatch D = .ok true) :
    ∃ ps qs x y, a.nextProducers = some ps ∧ b.nextProducers = some qs ∧
      (ProducerList.schema : Schema .owned _).toBytes ps = .ok x ∧
        (ProducerList.schema : Schema .owned _).toBytes qs = .ok y ∧
          (ps = qs ∨ (x ≠ y ∧ D x = D y)) := by
  obtain ⟨ps, x, hps, hx, hDx⟩ := nextProducersMatch_eq_ok_true_iff.1 ha
  obtain ⟨qs, y, hqs, hy, hDy⟩ := nextProducersMatch_eq_ok_true_iff.1 hb
  refine ⟨ps, qs, x, y, hps, hqs, hx, hy, ?_⟩
  by_cases hxy : x = y
  · exact .inl (Schema.eq_of_toBytes hx (hxy ▸ hy))
  · exact .inr ⟨hxy, by rw [hDx, hDy, hheader]⟩

/-- **Producers match when they are what the header commits to.**  Whatever the
digest, a comparison ends with true exactly when producers are announced and the
digest of the bytes of their list is the hash in the header.  It fails exactly
when the list has more entries than a count holds, or an account more bytes, and
then for the first count that does not fit.  Else it ends with false, as it does
whenever no producers are announced.  Two views with one hash in their headers
that both match announce one list of producers, or the bytes of their lists are
two byte strings with one digest. -/
theorem producers_match_commitment (D : Digest) :
    (∀ v : BlockView, v.nextProducersMatch D = .ok true ↔
      ∃ producers x, v.nextProducers = some producers ∧
        (ProducerList.schema : Schema .owned _).toBytes producers = .ok x ∧
          D x = v.header.nextProducers) ∧
    (∀ v : BlockView, (∃ e, v.nextProducersMatch D = .error e) ↔
      ∃ producers, v.nextProducers = some producers ∧ (Put.maxLength < producers.length ∨
        ∃ entry ∈ producers, Put.maxLength < (Put.utf8 entry.producer.account).length)) ∧
    (∀ (v : BlockView) e, v.nextProducersMatch D = .error e ↔
      ∃ producers n, v.nextProducers = some producers ∧
        producers.counts.find? (Put.maxLength < ·) = some n ∧ e = .lengthOverflow n) ∧
    (∀ v : BlockView, v.nextProducersMatch D = .ok false ↔
      v.nextProducers = none ∨ ∃ producers x, v.nextProducers = some producers ∧
        (ProducerList.schema : Schema .owned _).toBytes producers = .ok x ∧
          D x ≠ v.header.nextProducers) ∧
    (∀ a b : BlockView, a.header.nextProducers = b.header.nextProducers →
      a.nextProducersMatch D = .ok true → b.nextProducersMatch D = .ok true →
        ∃ ps qs x y, a.nextProducers = some ps ∧ b.nextProducers = some qs ∧
          (ProducerList.schema : Schema .owned _).toBytes ps = .ok x ∧
            (ProducerList.schema : Schema .owned _).toBytes qs = .ok y ∧
              (ps = qs ∨ (x ≠ y ∧ D x = D y))) := by
  refine ⟨fun v => nextProducersMatch_eq_ok_true_iff, fun v => ?_,
    fun v e => nextProducersMatch_eq_error_iff, fun v => nextProducersMatch_eq_ok_false_iff,
    fun a b => eq_or_collision_of_nextProducersMatch⟩
  simp only [nextProducersMatch_eq_error_iff, ← ProducerList.exists_overflow_iff]
  constructor
  · rintro ⟨_, producers, n, hv, hn, -⟩
    exact ⟨producers, hv, n, hn⟩
  · rintro ⟨producers, hv, n, hn⟩
    exact ⟨_, producers, n, hv, hn, rfl⟩

/-- The hypotheses are satisfiable: under a digest that gives every byte string the
same hash, no producers and one producer both match, and are a collision.  A list
of one entry more than a count holds is refused.  Under a digest that tells the two
lists apart, one producer does not match where no producers do. -/
theorem producers_match_two_lists :
    (∃ x y, (ProducerList.schema : Schema .owned _).toBytes [] = .ok x ∧
      (ProducerList.schema : Schema .owned _).toBytes
        [.v1 ⟨"a", .ed25519 (Vector.replicate 32 1), .ofNat 5⟩] = .ok y ∧ x ≠ y) ∧
    (∃ e, nextProducersMatch (fun _ => .zero) ⟨.zero, .zero,
      ⟨7, .zero, .zero, .zero, .zero, 1, 2, .zero, .zero⟩, .zero,
      some (List.replicate (Put.maxLength + 1)
        (.v1 ⟨"a", .ed25519 (Vector.replicate 32 1), .ofNat 5⟩)), []⟩ = .error e) ∧
    ∃ hash, nextProducersMatch .positional { plain with
        header.nextProducers := hash, nextProducers := some [] } = .ok true ∧
      nextProducersMatch .positional { plain with
        header.nextProducers := hash,
        nextProducers := some [.v1 ⟨"a", .ed25519 (Vector.replicate 32 1), .ofNat 5⟩] } ≠
          .ok true := by
  obtain ⟨-, herror, -, -, hbind⟩ := producers_match_commitment fun _ => .zero
  obtain ⟨hmatch, -, -, -, happart⟩ := producers_match_commitment .positional
  have hnone : (ProducerList.schema : Schema .owned _).toBytes [] = .ok [0, 0, 0, 0] := rfl
  obtain ⟨hash, hfirst⟩ : ∃ hash, nextProducersMatch .positional { plain with
      header.nextProducers := hash, nextProducers := some [] } = .ok true :=
    ⟨Digest.positional [0, 0, 0, 0], (hmatch _).2 ⟨_, _, rfl, hnone, rfl⟩⟩
  refine ⟨?_, ?_, hash, hfirst, fun hsecond => ?_⟩
  · obtain ⟨ps, qs, x, y, hps, hqs, hx, hy, hsame | ⟨hxy, -⟩⟩ := hbind
      ⟨.zero, .zero, ⟨7, .zero, .zero, .zero, .zero, 1, 2, .zero, .zero⟩, .zero, some [], []⟩
      ⟨.zero, .zero, ⟨8, .zero, .zero, .zero, .zero, 1, 2, .zero, .zero⟩, .zero,
        some [.v1 ⟨"a", .ed25519 (Vector.replicate 32 1), .ofNat 5⟩], []⟩ rfl rfl rfl
    · obtain rfl := Option.some.inj hps
      obtain rfl := Option.some.inj hqs
      exact absurd hsame (List.cons_ne_nil _ _).symm
    · obtain rfl := Option.some.inj hps
      obtain rfl := Option.some.inj hqs
      exact ⟨x, y, hx, hy, hxy⟩
  · refine (herror _).2 ⟨_, rfl, .inl ?_⟩
    rw [List.length_replicate]
    exact Nat.lt_succ_self _
  · obtain ⟨ps, qs, x, y, hps, hqs, hx, hy, hsame | ⟨-, hD⟩⟩ := happart _ _ (by rfl)
      hfirst hsecond
    · obtain rfl := Option.some.inj hps
      obtain rfl := Option.some.inj hqs
      exact absurd hsame (List.cons_ne_nil _ _).symm
    · obtain rfl := Option.some.inj hps
      obtain rfl := Option.some.inj hqs
      have hwritten : (ProducerList.schema : Schema .owned _).toBytes
          [.v1 ⟨"a", .ed25519 (Vector.replicate 32 1), .ofNat 5⟩] =
            .ok ([1, 0, 0, 0, 0, 1, 0, 0, 0, 97, 0] ++ (List.replicate 32 1 ++
              5 :: List.replicate 15 0)) := Put.toExcept_eq_ok_iff.2 (by decide +kernel)
      obtain rfl := Except.ok.inj (hx.symm.trans hnone)
      obtain rfl := Except.ok.inj (hy.symm.trans hwritten)
      exact absurd hD (by decide +kernel)

end BlockView
end LightWire
