/-
# Paths one after another

A path from a leaf may be cut anywhere.  The lower part leads to some hash, and the
upper part leads on from that hash as from a leaf, so who holds the two parts finds
what who holds the whole path finds:

| whole path | lower part | upper part |
| --- | --- | --- |
| leads from `leaf` to `root` | leads from `leaf` to `mid` | leads from `mid` to `root` |

A path of any length leads somewhere, one too long to be written included, and is
found to lead to a root exactly if it leads there.  On the way the digest is asked
once for each item, for a string of 64 bytes each time.
-/

import LightWire.Proofs.Inclusion

namespace LightWire
namespace Merkle
namespace Path

/-- **A path that goes on leads on from where it led,** or stops where one of its two
parts stops. -/
theorem rootM_append (D : Digest) (p q : Path) (leaf : Hash) :
    rootM D (p ++ q) leaf = rootM D p leaf >>= rootM D q :=
  List.foldlM_append

/-- **A path that goes on leads to a root exactly when some hash is on the way:** its
lower part leads to that hash, and its upper part from there to the root. -/
theorem verifyM_append_eq_ok_true_iff {D : Digest} {p q : Path} {leaf root : Hash} :
    verifyM D (p ++ q) leaf root = .ok true ↔
      ∃ mid, verifyM D p leaf mid = .ok true ∧ verifyM D q mid root = .ok true := by
  simp only [verifyM_eq_ok_true_iff, root_append]
  constructor
  · intro h
    exact ⟨_, rfl, h⟩
  · rintro ⟨_, rfl, h⟩
    exact h

end Path

/-- **Paths compose and never fail.**  Whatever the digest, a path of any length leads
from every leaf to some root.  The run along it, with a digest that notes what it is
asked, answers the same, and the notes are one string of 64 bytes for each item; with a
digest without effects that run is the one that leads to the root.  Two paths in a row
lead where the second leads from where the first led, and are found to lead to a root
exactly if there is a hash that the first is found to lead to and from which the second
is found to lead to the root.  Of every hash it is found whether the path leads to it. -/
theorem paths_compose (D : Digest) (p q : Path) (leaf : Hash) :
    (∃ hash, Path.rootM D p leaf = .ok hash) ∧
    (Path.rootIn (m := Id) D p leaf).run = Path.rootM D p leaf ∧
    (Path.rootIn (noting D) p leaf).run.run [] =
      (Path.rootM D p leaf, Path.preimages D p leaf) ∧
    (Path.preimages D p leaf).length = p.length ∧
    (∀ x ∈ Path.preimages D p leaf, x.length = 64) ∧
    Path.rootM D (p ++ q) leaf = Path.rootM D p leaf >>= Path.rootM D q ∧
    (∀ mid, Path.rootM D p leaf = .ok mid →
      Path.rootM D (p ++ q) leaf = Path.rootM D q mid) ∧
    (∀ root, Path.verifyM D (p ++ q) leaf root = .ok true ↔
      ∃ mid, Path.verifyM D p leaf mid = .ok true ∧ Path.verifyM D q mid root = .ok true) ∧
    (∀ root, (Path.verifyM D p leaf root = .ok true ↔ Path.rootM D p leaf = .ok root) ∧
      (Path.verifyM D p leaf root = .ok false ↔ Path.rootM D p leaf ≠ .ok root)) := by
  refine ⟨⟨_, Path.rootM_eq D p leaf⟩, Path.run_rootIn_id D p leaf, ?_,
    Path.length_preimages D p leaf, fun x => Path.length_of_mem_preimages,
    Path.rootM_append D p q leaf, fun mid hmid => ?_,
    fun root => Path.verifyM_append_eq_ok_true_iff,
    fun root => ⟨?_, ?_⟩⟩
  · rw [Path.run_rootIn_noting, Path.rootM_eq, List.nil_append]
  · rw [Path.rootM_append, hmid]
    rfl
  · exact Path.verifyM_eq_ok_true_iff.trans Path.rootM_eq_ok_iff.symm
  · exact Path.verifyM_eq_ok_false_iff.trans (not_congr Path.rootM_eq_ok_iff).symm

/-- The hypotheses are satisfiable: under a digest that gives every byte string the
same hash, a path past a right neighbour leads to that hash and then on past a left
one, and what is asked for at the first has the leaf before the neighbour. -/
theorem paths_compose_left_of_right :
    Path.rootM (fun _ => .zero) ([⟨.zero, .right⟩] ++ [⟨⟨Vector.replicate 32 1⟩, .left⟩])
        ⟨Vector.replicate 32 2⟩ =
      Path.rootM (fun _ => .zero) [⟨⟨Vector.replicate 32 1⟩, .left⟩] .zero ∧
    (List.replicate 32 2 ++ List.replicate 32 0 : Bytes).length = 64 := by
  obtain ⟨-, -, -, -, hlength, -, hmid, -⟩ := paths_compose (fun _ => .zero) [⟨.zero, .right⟩]
    [⟨⟨Vector.replicate 32 1⟩, .left⟩] ⟨Vector.replicate 32 2⟩
  exact ⟨hmid .zero rfl, hlength _ (List.mem_singleton.2 rfl)⟩

end Merkle
end LightWire
